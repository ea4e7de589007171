import OpenVariants.Proofs.Key
import OpenVariants.Proofs.Run

/-! Computations that agree.

Two computations agree on worlds with a property if they do the same there and the
property stays (`Run.Agree`). Whatever is built from requests the same way agrees when
the performers do, provided that new objects, constructions, the log and the nesting of
calls keep the property (`Stable`). With one performer twice, agreement says that the
property is an invariant of evaluation. -/
namespace OpenVariants

namespace Run

/-- On worlds with a property the computations do the same, and the property stays. -/
def Agree (I : World → Prop) (x y : Run α) : Prop := ∀ w, I w → x w = y w ∧ I (x w).2

section Combinators
variable {I : World → Prop}

theorem agree_pure (a : α) : Agree I (pure a) (pure a) := fun _ hw => ⟨rfl, hw⟩

theorem agree_fail (f : Fault) : Agree I (Run.fail f : Run α) (Run.fail f) := fun _ hw => ⟨rfl, hw⟩

theorem agree_throw (stop : Stop) : Agree I (throw stop : Run α) (throw stop) :=
  fun _ hw => ⟨rfl, hw⟩

theorem agree_lift (r : Except Fault α) : Agree I (Run.lift r) (Run.lift r) := by
  intro w hw
  cases r <;> exact ⟨rfl, hw⟩

theorem agree_get : Agree I (get : Run World) get := fun _ hw => ⟨rfl, hw⟩

theorem agree_change (f : World → α × World) (hf : ∀ w, I w → I (f w).2) :
    Agree I (Run.change f) (Run.change f) := fun w hw => ⟨rfl, hf w hw⟩

theorem agree_modify (f : World → World) (hf : ∀ w, I w → I (f w)) :
    Agree I (modify f : Run PUnit) (modify f) := fun w hw => ⟨rfl, hf w hw⟩

theorem Agree.bind {x y : Run α} {f g : α → Run β} (hx : Agree I x y)
    (hf : ∀ a, Agree I (f a) (g a)) : Agree I (x >>= f) (y >>= g) := by
  intro w hw
  obtain ⟨heq, hnext⟩ := hx w hw
  rw [bind_apply, bind_apply, ← heq]
  cases hr : x w with
  | mk r w' =>
    rw [hr] at hnext
    cases r with
    | ok a => exact hf a w' hnext
    | error stop => exact ⟨rfl, hnext⟩

theorem Agree.at {x y : Run α} (site : FieldSite) (hx : Agree I x y) :
    Agree I (Run.at site x) (Run.at site y) := by
  intro w hw
  obtain ⟨heq, hnext⟩ := hx w hw
  unfold Run.at
  rw [← heq]
  refine ⟨rfl, ?_⟩
  cases hr : x w with
  | mk r w' =>
    rw [hr] at hnext
    cases r with
    | ok a => exact hnext
    | error stop => cases stop <;> exact hnext

end Combinators

end Run

/-- What survives all that a body does by itself. -/
structure Stable (I : World → Prop) : Prop where
  push : ∀ w o, I w → I (w.push o)
  construct : ∀ w r tag fields, I w → I (w.canonicalize r tag fields).2
  log : ∀ w lines, I w → I {w with log := lines}
  nesting : ∀ w n, I w → I {w with nesting := n}

section Performers
variable {I : World → Prop} {P Q : Performer}

open Run

theorem Program.agree_run (hI : Stable I) (frame : Option Frame)
    (hP : ∀ r, Agree I (P frame r) (Q frame r)) (p : Program α) :
    Agree I (p.run P frame) (p.run Q frame) := by
  induction p with
  | done result => exact agree_lift result
  | ask q next ih => exact agree_get.bind fun w => ih _
  | make content next ih =>
    exact (agree_change _ fun w hw => hI.push w _ hw).bind ih
  | makeFunction label body next ih =>
    exact (agree_change _ fun w hw => hI.push w _ hw).bind ih
  | makeLazy body next ih =>
    exact (agree_change _ fun w hw => hI.push w _ hw).bind ih
  | log line next ih =>
    exact (agree_modify _ fun w hw => hI.log w _ hw).bind fun _ => ih
  | request r next ih =>
    intro w hw
    obtain ⟨heq, hnext⟩ := hP r w hw
    simp only [run]
    rw [← heq]
    cases hr : P frame r w with
    | mk result w' =>
      rw [hr] at hnext
      cases result with
      | ok v => exact ih (.ok v) w' hnext
      | error stop =>
        cases stop with
        | fault f => exact ih (.error f) w' hnext
        | exhausted => exact ⟨rfl, hnext⟩

/-! ### Fields and patterns -/

theorem agree_readField (hP : ∀ frame r, Agree I (P frame r) (Q frame r)) (tag : Tag) (index : Nat)
    (v : Value) : Agree I (readField P tag index v) (readField Q tag index v) := by
  unfold readField
  split
  · exact (hP none _).at _
  · exact agree_pure v

/-- Reads that agree one by one. -/
theorem agree_mapIdx {f g : Nat → β → Run Value} (h : ∀ i x, Agree I (f i x) (g i x))
    (xs : List β) : List.Forall₂ (Agree I) (xs.mapIdx f) (xs.mapIdx g) := by
  rw [List.forall₂_iff_get]
  refine ⟨by simp, fun i hi hi' => ?_⟩
  simp only [List.get_eq_getElem, List.getElem_mapIdx]
  exact h i _

theorem agree_fieldReads (hP : ∀ frame r, Agree I (P frame r) (Q frame r)) (tag : Tag)
    (values : List Value) :
    List.Forall₂ (Agree I) (fieldReads P tag values) (fieldReads Q tag values) :=
  agree_mapIdx (fun i v => agree_readField hP tag i v) values

theorem agree_indexedRead (hP : ∀ frame r, Agree I (P frame r) (Q frame r)) (tag : Tag)
    (values : List Value) (index : Nat) :
    Agree I (indexedRead P tag values index) (indexedRead Q tag values index) := by
  unfold indexedRead
  split
  · exact agree_readField hP _ _ _
  · exact agree_fail _

theorem agree_readAt (hP : ∀ frame r, Agree I (P frame r) (Q frame r)) (id : ObjectId)
    (index : Nat) : Agree I (readAt P id index) (readAt Q id index) := by
  unfold readAt
  refine agree_get.bind fun w => ?_
  split
  · exact agree_pure _
  · exact agree_indexedRead hP _ _ index

theorem agree_reads {reads reads' : List (Run Value)}
    (h : List.Forall₂ (Agree I) reads reads') (i : Nat) :
    Option.Rel (Agree I) reads[i]? reads'[i]? := by
  induction h generalizing i with
  | nil => exact .none
  | cons hx _ ih =>
    cases i with
    | zero => exact .some hx
    | succ i => exact ih i

mutual

theorem agree_unify (hP : ∀ frame r, Agree I (P frame r) (Q frame r)) (p : Pattern) (v : Value) :
    Agree I (unify P p v) (unify Q p v) := by
  cases p with
  | wildcard | literal | kind => exact agree_pure _
  | tag t | data t => exact agree_get.bind fun w => agree_pure _
  | record entries =>
    refine agree_get.bind fun w => ?_
    split
    · refine agree_unifyEntries hP entries fun key => ?_
      cases List.lookup key _ with
      | none => exact .none
      | some v => exact .some (agree_pure v)
    · next tag values _ =>
      refine agree_unifyEntries hP entries fun key => ?_
      cases tag.fieldIndex? key with
      | none => exact .none
      | some index => exact agree_reads (agree_fieldReads hP tag values) index
    · exact agree_pure false
  | list items =>
    refine agree_get.bind fun w => ?_
    split
    · split
      · refine agree_unifyItems hP items ?_
        rw [List.forall₂_map_left_iff, List.forall₂_map_right_iff, List.forall₂_same]
        exact fun v _ => agree_pure v
      · exact agree_pure false
    · split
      · exact agree_unifyItems hP items (agree_fieldReads hP _ _)
      · exact agree_pure false
    · exact agree_pure false
  | variant t fields =>
    refine agree_get.bind fun w => ?_
    split
    · split
      · exact agree_unifyItems hP fields (agree_mapIdx (fun i _ => agree_indexedRead hP _ _ i) fields)
      · exact agree_pure false
    · exact agree_pure false

theorem agree_unifyItems (hP : ∀ frame r, Agree I (P frame r) (Q frame r)) (patterns : List Pattern)
    {reads reads' : List (Run Value)} (hr : List.Forall₂ (Agree I) reads reads') :
    Agree I (unifyItems P patterns reads) (unifyItems Q patterns reads') := by
  cases patterns with
  | nil => exact agree_pure true
  | cons p patterns =>
    cases hr with
    | nil => exact agree_pure true
    | cons hx hrest =>
      refine hx.bind fun v => (agree_unify hP p v).bind fun matched => ?_
      cases matched with
      | true => exact agree_unifyItems hP patterns hrest
      | false => exact agree_pure false

theorem agree_unifyEntries (hP : ∀ frame r, Agree I (P frame r) (Q frame r))
    (entries : List (String × Pattern)) {read? read?' : String → Option (Run Value)}
    (hr : ∀ key, Option.Rel (Agree I) (read? key) (read?' key)) :
    Agree I (unifyEntries P entries read?) (unifyEntries Q entries read?') := by
  cases entries with
  | nil => exact agree_pure true
  | cons e rest =>
    obtain ⟨key, p⟩ := e
    have hkey := hr key
    rw [unifyEntries, unifyEntries]
    cases hread : read? key with
    | none =>
      rw [hread] at hkey
      cases hkey' : read?' key with
      | none => exact agree_pure false
      | some y => rw [hkey'] at hkey; cases hkey
    | some x =>
      rw [hread] at hkey
      cases hkey' : read?' key with
      | none => rw [hkey'] at hkey; cases hkey
      | some y =>
        rw [hkey'] at hkey
        cases hkey with
        | some hx =>
          refine hx.bind fun v => (agree_unify hP p v).bind fun matched => ?_
          cases matched with
          | true => exact agree_unifyEntries hP rest hr
          | false => exact agree_pure false

end

/-! ### Rules, cases and calls -/

theorem agree_matches (hP : ∀ frame r, Agree I (P frame r) (Q frame r)) (args : List Value)
    (rule : Rule) : Agree I (rule.matches P args) (rule.matches Q args) :=
  agree_unifyItems hP rule.patterns (agree_mapIdx (fun _ _ => agree_pure _) rule.patterns)

theorem agree_select (hP : ∀ frame r, Agree I (P frame r) (Q frame r)) (args : List Value)
    (rules : List Rule) : Agree I (Rules.select P args rules) (Rules.select Q args rules) := by
  induction rules with
  | nil => exact agree_pure none
  | cons rule rest ih =>
    refine (agree_matches hP args rule).bind fun matched => ?_
    cases matched with
    | true => exact agree_pure _
    | false => exact ih

theorem Case.agree_run (hI : Stable I) (hP : ∀ frame r, Agree I (P frame r) (Q frame r))
    (frame : Frame) (name : String) (args : List Value) (c : Case) :
    Agree I (c.run P frame name args) (c.run Q frame name args) := by
  cases c with
  | handler body => exact Program.agree_run hI _ (hP _) _
  | rules list =>
    refine (agree_select hP args list.rules).bind fun rule? => ?_
    cases rule? with
    | some rule => exact Program.agree_run hI _ (hP _) _
    | none => exact agree_get.bind fun w => agree_fail _

theorem Trait.agree_dispatch (hI : Stable I) (hP : ∀ frame r, Agree I (P frame r) (Q frame r))
    (t : Trait) (receiver : Value) (args : List Value) :
    Agree I (t.dispatch P receiver args) (t.dispatch Q receiver args) := by
  refine agree_get.bind fun w => ?_
  dsimp only
  split
  · exact Case.agree_run hI hP _ _ _ _
  · exact agree_fail _

theorem Bottom.agree_run (hI : Stable I) (hP : ∀ frame r, Agree I (P frame r) (Q frame r))
    (args : List Value) (b : Bottom) : Agree I (b.run P args) (b.run Q args) := by
  cases b with
  | value v => exact agree_pure v
  | compute body => exact Program.agree_run hI _ (hP _) _

theorem Trait.agree_guarded (hI : Stable I) {x y : Run α} (hxy : Agree I x y) (t : Trait) :
    Agree I (t.guarded x) (t.guarded y) := by
  have hsegment : Agree I x.inSegment y.inSegment := by
    intro w hw
    unfold Run.inSegment
    simp only [onFreshStack_eq]
    split
    · obtain ⟨heq, hnext⟩ := hxy _ (hI.nesting w w.nesting.suspend hw)
      rw [← heq]
      exact ⟨rfl, hI.nesting _ _ hnext⟩
    · exact hxy w hw
  intro w hw
  unfold Trait.guarded
  split
  · exact ⟨rfl, hw⟩
  · obtain ⟨heq, hnext⟩ := hsegment _ (hI.nesting w w.nesting.enter hw)
    rw [← heq]
    exact ⟨rfl, hI.nesting _ _ hnext⟩

/-- A call through a memo table looks the path up, and is a miss if nothing is there. -/
theorem Memo.call_eq (perform : Performer) (memo : Memo) (t : Trait) (receiver : Value)
    (args : List Value) (w : World) :
    memo.call perform t receiver args w =
      match Key.path args with
      | .error f => (.error (.fault f), w)
      | .ok path =>
        match w.stored? memo.store path with
        | some hit => (.ok hit, w)
        | none => memo.fill perform t receiver args path w := by
  simp only [Memo.call, bind_apply, lift_apply]
  cases Key.path args with
  | error f => rfl
  | ok path =>
    simp only [get_apply]
    cases w.stored? memo.store path <;> rfl

section Fill
variable {perform : Performer} {memo : Memo} {t : Trait} {receiver b v : Value} {args : List Value}
  {w w₁ w₂ : World} {stop : Stop}

/-- A miss ends with its bottom if that fails. -/
theorem Memo.fill_of_bottom (hb : memo.bottom.run perform args w = (.error stop, w₁))
    (path : List Key) : memo.fill perform t receiver args path w = (.error stop, w₁) := by
  simp only [Memo.fill, bind_apply, get_apply, hb]

/-- The value of a miss goes into the table. -/
theorem Memo.fill_ok {path : List Key} (hb : memo.bottom.run perform args w = (.ok b, w₁))
    (hd : t.dispatch perform receiver args
      ((w₁.storeSet memo.store path b).reclaimed w.nextObject) = (.ok v, w₂)) :
    memo.fill perform t receiver args path w = (.ok v, w₂.storeSet memo.store path v) := by
  simp only [Memo.fill, bind_apply, get_apply, modify_apply, hb, hd]

/-- After a case that failed nothing stays in the table. -/
theorem Memo.fill_error {path : List Key} (hb : memo.bottom.run perform args w = (.ok b, w₁))
    (hd : t.dispatch perform receiver args
      ((w₁.storeSet memo.store path b).reclaimed w.nextObject) = (.error stop, w₂)) :
    memo.fill perform t receiver args path w = (.error stop, w₂.storeErase memo.store path) := by
  simp only [Memo.fill, bind_apply, get_apply, modify_apply, hb, hd]

end Fill

/-- What survives a call through a memo table: what goes into the table and out of it
under one path, and the death of what was made meanwhile. -/
structure Memo.Keeps (I : World → Prop) (memo : Memo) (path : List Key) : Prop where
  set : ∀ w v, I w → I (w.storeSet memo.store path v)
  erase : ∀ w, I w → I (w.storeErase memo.store path)
  reclaim : ∀ w w', I w → I w' → I (w'.reclaimed w.nextObject)

theorem Memo.agree_fill (hI : Stable I) (hP : ∀ frame r, Agree I (P frame r) (Q frame r))
    (memo : Memo) (t : Trait) (receiver : Value) (args : List Value) (path : List Key)
    (hk : memo.Keeps I path) :
    Agree I (memo.fill P t receiver args path) (memo.fill Q t receiver args path) := by
  intro w hw
  simp only [Memo.fill, bind_apply, get_apply, modify_apply]
  obtain ⟨heq, hbottom⟩ := Bottom.agree_run hI hP args memo.bottom w hw
  rw [← heq]
  cases hr : memo.bottom.run P args w with
  | mk r w₁ =>
    rw [hr] at hbottom
    cases r with
    | error stop => exact ⟨rfl, hbottom⟩
    | ok b =>
      have hset := hk.reclaim w _ hw (hk.set w₁ b hbottom)
      obtain ⟨heq', hbody⟩ := Trait.agree_dispatch hI hP t receiver args _ hset
      simp only
      rw [← heq']
      cases hd : t.dispatch P receiver args
          ((w₁.storeSet memo.store path b).reclaimed w.nextObject) with
      | mk r w₂ =>
        rw [hd] at hbody
        cases r with
        | ok v => exact ⟨rfl, hk.set w₂ v hbody⟩
        | error stop => exact ⟨rfl, hk.erase w₂ hbody⟩

theorem Memo.agree_call (hI : Stable I) (hP : ∀ frame r, Agree I (P frame r) (Q frame r))
    (memo : Memo) (t : Trait) (receiver : Value) (args : List Value)
    (hk : ∀ path, path ≠ [] → memo.Keeps I path) :
    Agree I (memo.call P t receiver args) (memo.call Q t receiver args) := by
  intro w hw
  rw [Memo.call_eq, Memo.call_eq]
  cases hpath : Key.path args with
  | error f => exact ⟨rfl, hw⟩
  | ok path =>
    dsimp only
    cases w.stored? memo.store path with
    | some hit => exact ⟨rfl, hw⟩
    | none => exact Memo.agree_fill hI hP memo t receiver args path (hk path (Key.path_ok hpath).2) w hw

/-- Performers agree if their ways to call traits do. -/
theorem agree_answering {call call' : Performer → Trait → List Value → Run Value}
    (hP : ∀ frame r, Agree I (P frame r) (Q frame r))
    (hI : Stable I) (hcall : ∀ t args, Agree I (call P t args) (call' Q t args))
    (frame : Option Frame) (r : Request) :
    Agree I (answering call P frame r) (answering call' Q frame r) := by
  cases r with
  | call id args =>
    refine agree_get.bind fun w => ?_
    split
    · exact hcall _ _
    · exact agree_pure _
  | recur args =>
    cases frame with
    | none => exact agree_fail _
    | some f => exact hcall _ _
  | base args =>
    cases frame with
    | none => exact agree_fail _
    | some f =>
      simp only [answering]
      split
      · exact hcall _ _
      · exact agree_fail _
  | force id =>
    refine agree_get.bind fun w => ?_
    split
    · exact Program.agree_run hI _ (hP _) _
    · exact agree_pure _
  | apply id args =>
    refine agree_get.bind fun w => ?_
    split
    · exact Program.agree_run hI _ (hP _) _
    · exact agree_pure _
  | read id index => exact agree_readAt hP id index
  | unify p v => exact (agree_unify hP p v).bind fun b => agree_pure _
  | construct v args =>
    refine (agree_lift _).bind fun fields => ?_
    exact agree_change _ fun w hw => hI.construct w _ _ _ hw

/-- What survives bodies and memo tables survives evaluation. -/
theorem agree_perform (hI : Stable I) (hk : ∀ memo path, path ≠ [] → Memo.Keeps I memo path)
    (n : Nat) (frame : Option Frame) (r : Request) : Agree I (perform n frame r) (perform n frame r) := by
  induction n generalizing frame r with
  | zero => exact agree_throw _
  | succ n ih =>
    refine agree_answering ih hI (fun t args => ?_) frame r
    unfold Trait.call
    split
    · exact agree_fail _
    · refine Trait.agree_guarded hI ?_ t
      split
      · exact Memo.agree_call hI ih _ _ _ _ fun path => hk _ path
      · exact Trait.agree_dispatch hI ih _ _ _

end Performers

end OpenVariants

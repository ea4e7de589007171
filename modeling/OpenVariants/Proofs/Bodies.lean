import OpenVariants.Proofs.Form
import OpenVariants.Proofs.Lockstep

/-! Bodies in lockstep.

A performer is steady if it answers in step whatever is requested of it on what is in
hand. Under a steady performer every body is in step: it asks about the world, makes
objects and requests what it was given or found, and all of that is in hand. So an
expression in a scope that is in hand has one value, in hand again
(`Expr.steady_meaning`). -/
namespace OpenVariants

namespace World

/-- The call that a running case belongs to is in hand. -/
def HasFrame (w : World) : Option Frame → Prop
  | none => True
  | some f => w.HasTrait f.invoked ∧ w.HasTrait f.owner

/-- What a request is given is in hand. -/
def HasRequest (w : World) : Request → Prop
  | .call id args => w.HasTraitId id ∧ w.Has args
  | .recur args | .base args | .apply _ args | .construct _ args => w.Has args
  | .force _ | .read .. | .unify .. => True

/-- A value in hand. -/
def HasValue (w : World) (v : Value) : Prop := w.heap.Proper v

/-- What an expression sees around it is in hand. -/
structure HasScope (w : World) (s : Scope) : Prop where
  args : w.Has s.args
  acc : ∀ v, s.acc = some v → w.HasValue v
  item : ∀ v, s.item = some v → w.HasValue v

section
variable {w w' : World}

theorem HasFrame.onward {frame : Option Frame} (h : w.HasFrame frame) (ho : w.Onward w') :
    w'.HasFrame frame := by
  cases frame with
  | none => trivial
  | some f => exact ⟨h.1.onward ho, h.2.onward ho⟩

theorem HasValue.onward {v : Value} (h : w.HasValue v) (ho : w.Onward w') : w'.HasValue v :=
  h.extends ho.extends_

theorem hasValue_of_plain {v : Value} (hv : v.object? = none) : w.HasValue v :=
  Heap.proper_of_plain hv

theorem HasScope.onward {s : Scope} (h : w.HasScope s) (ho : w.Onward w') : w'.HasScope s :=
  ⟨h.args.onward ho, fun v hv => (h.acc v hv).onward ho, fun v hv => (h.item v hv).onward ho⟩

theorem has_nil : w.Has [] := nofun

theorem has_cons {v : Value} {values : List Value} :
    w.Has (v :: values) ↔ w.HasValue v ∧ w.Has values := List.forall_mem_cons

theorem has_append {values values' : List Value} :
    w.Has (values ++ values') ↔ w.Has values ∧ w.Has values' := List.forall_mem_append

theorem Has.getD {values : List Value} (h : w.Has values) (index : Nat) :
    w.HasValue ((values[index]?).getD .null) := by
  cases hv : values[index]? with
  | none => exact hasValue_of_plain rfl
  | some v => exact h v (List.mem_of_getElem? hv)

/-- Keyed arguments are among the entries. -/
theorem Has.keyed {variant : Variant} {entries : List (String × Value)} {values : List Value}
    (h : w.Has (entries.map (·.2))) (hk : variant.keyed entries = .ok values) : w.Has values :=
  fun v hv => h v (gather_mem (keyed_ok hk) hv)

/-- What is inside an object in hand is in hand. -/
theorem Fit.content (hw : w.Fit) {v : Value} {c : Content} (h : w.heap.content? v = some c) :
    w.Has c.children := by
  unfold Heap.content? at h
  split at h
  · next c' hobject =>
    cases h
    obtain ⟨id, _, ho⟩ := Option.bind_eq_some_iff.mp hobject
    exact fun u hu => (hw.tables.heap id _ ho u hu).1
  · cases h

theorem Fit.instance (hw : w.Fit) {v : Value} {tag : Tag} {values : List Value}
    (h : w.heap.instance? v = some (tag, values)) : w.Has values := by
  unfold Heap.instance? at h
  split at h
  · next hcontent =>
    cases h
    exact hw.content hcontent
  · cases h

/-- What a knot is tied to is in hand as long as it lives. -/
theorem Fit.knotTarget (hw : w.Fit) {k : KnotId} {v : Value} (h : w.knotTarget k = .ok v) :
    w.HasValue v := by
  unfold World.knotTarget at h
  split at h
  · cases h
  · next _ hu =>
    split at h
    · next hholds =>
      cases h
      exact (hw.tables.knots k v (Option.join_eq_some_iff.mp hu)).proper hholds
    · cases h

theorem Fit.binding? (hw : w.Fit) {name : String} {b : Binding} (h : w.binding? name = some b) :
    w.HasBinding b := by
  obtain ⟨before, after, hsplit, _⟩ := List.lookup_eq_some_iff.mp h
  refine hw.bindings (name, b) ?_
  rw [hsplit]
  exact List.mem_append_right _ List.mem_cons_self

end

end World

open World

/-- A performer that answers in step what is requested on what is in hand. -/
def Performer.Steady (P : Performer) : Prop :=
  ∀ w frame r, w.HasFrame frame → w.HasRequest r → (P frame r).Steady HasValue w

namespace Program

/-- A program that is in step under every steady performer. -/
def Steady (p : Program α) (post : World → α → Prop) (w : World) : Prop :=
  ∀ P : Performer, P.Steady → ∀ frame, w.HasFrame frame → (p.run P frame).Steady post w

section Rules
variable {w : World} {post : World → α → Prop} {post' : World → β → Prop}

theorem Steady.mono {p : Program α} {post₂ : World → α → Prop} (h : p.Steady post w)
    (himp : ∀ w' a, w.Onward w' → post w' a → post₂ w' a) : p.Steady post₂ w :=
  fun P hP frame hframe => (h P hP frame hframe).mono himp

theorem steady_pure {a : α} (h : ∀ w', w.Onward w' → post w' a) : (pure a : Program α).Steady post w :=
  fun _ _ _ _ => Run.steady_pure h

theorem steady_fail (f : Fault) : (fail f : Program α).Steady post w :=
  fun _ _ _ _ => Run.steady_fail f

theorem steady_lift {r : Except Fault α} (h : ∀ a, r = .ok a → ∀ w', w.Onward w' → post w' a) :
    (lift r).Steady post w :=
  fun _ _ _ _ => Run.steady_lift h

theorem Steady.bind {p : Program α} {f : α → Program β} (hp : p.Steady post w)
    (hf : ∀ w' a, w.Onward w' → post w' a → (f a).Steady post' w') : (p >>= f).Steady post' w := by
  intro P hP frame hframe
  have hrun : (p >>= f).run P frame = p.run P frame >>= fun a => (f a).run P frame :=
    funext (run_bind P frame p f)
  rw [hrun]
  exact (hp P hP frame hframe).bind fun w' a ho ha =>
    hf w' a ho ha P hP frame (hframe.onward ho)

/-- The world answers every question in step. -/
theorem steady_query {q : Query} {post : World → q.Answer → Prop}
    (h : ∀ w' frame, w.Onward w' → w'.Fit → ∀ w'', w'.Onward w'' → post w'' (w'.answer frame q)) :
    (query q).Steady post w := by
  intro P hP frame hframe
  refine Run.steady_get (fun w' ho hfit => Run.steady_pure (h w' frame ho hfit)) fun w' rs => ?_
  cases q <;> rfl

theorem run_perform (P : Performer) (frame : Option Frame) (r : Request) :
    (perform r).run P frame = P frame r := by
  funext w
  simp only [perform, Program.run]
  rcases P frame r w with ⟨(_ | _) | _, _⟩ <;> rfl

theorem steady_perform {r : Request} (h : w.HasRequest r) : (perform r).Steady HasValue w := by
  intro P hP frame hframe
  rw [run_perform]
  exact hP w frame r hframe h

/-! ### New objects -/

/-- A new object that refers to what is in hand. -/
theorem steady_object {o : Object} (h : w.Has o.children) {f : World → Value × World}
    (hf : ∀ w, f w = (o.reference w.nextObject, w.push o)) : (Run.change f).Steady HasValue w := by
  refine Run.steady_change (fun w' ho _ => ?_) (fun w' => ?_) fun w' rs => ?_
  · have hobject : (w'.heap.push o).object? w'.nextObject = some o := by
      rw [Heap.object?_push]
      exact if_pos rfl
    rw [hf]
    exact ⟨onward_push (h.onward ho), Heap.proper_reference hobject⟩
  · rw [hf]
    rfl
  · rw [hf, hf]
    rfl

theorem steady_new {content : Content} (h : w.Has content.children) :
    (new content).Steady HasValue w := fun _ _ _ _ =>
  (steady_object (o := .content content) h fun _ => by cases content <;> rfl).bind
    fun _ _ _ hv => Run.steady_pure fun _ ho => hv.onward ho

theorem steady_newList {values : List Value} (h : w.Has values) :
    (newList values).Steady HasValue w := steady_new h

theorem steady_makeFunction (label : Option String) (body : Expr) :
    (Program.makeFunction label body pure).Steady HasValue w := fun _ _ _ _ =>
  (steady_object (o := .function label body) has_nil fun _ => rfl).bind
    fun _ _ _ hv => Run.steady_pure fun _ ho => hv.onward ho

theorem steady_makeLazy (body : LazyBody) :
    (Program.makeLazy body pure).Steady HasValue w := fun _ _ _ _ =>
  (steady_object (o := .lazy body) has_nil fun _ => rfl).bind
    fun _ _ _ hv => Run.steady_pure fun _ ho => hv.onward ho

theorem steady_log {line : String} {p : Program α} (h : ∀ w', w.Onward w' → p.Steady post w') :
    (Program.log line p).Steady post w := fun P hP frame hframe =>
  (Run.steady_modify (f := fun w => {w with log := line :: w.log})
    (fun _ _ _ => onward_of_eq rfl rfl rfl rfl rfl rfl) (fun _ => rfl) fun _ _ => rfl).bind
    fun w' _ ho _ => h w' ho P hP frame (hframe.onward ho)

/-! ### Names -/

/-- What a name is found to stand for is in hand. -/
theorem steady_lookUp (role name : String) (select : Binding → Option α) :
    (lookUp role name select).Steady (fun w a => ∃ b, w.HasBinding b ∧ select b = some a) w := by
  have hquery : (query (.binding name)).Steady
      (fun w b? => ∀ b, b? = some b → w.HasBinding b) w :=
    steady_query fun w' frame _ hfit w'' ho b hb => (hfit.binding? hb).onward ho
  refine hquery.bind fun w' b? _ hb => ?_
  split
  · next a ha =>
    obtain ⟨b, hsome, hselect⟩ := Option.bind_eq_some_iff.mp ha
    exact steady_pure fun w'' ho => ⟨b, (hb b hsome).onward ho, hselect⟩
  · exact steady_fail _

theorem steady_namedValue (name : String) : (namedValue name).Steady HasValue w := by
  refine (steady_lookUp "value" name Binding.value?).mono ?_
  rintro w' v - ⟨_ | _ | _ | _, hb, hv⟩ <;> cases hv
  exact hb

theorem steady_namedData (name : String) :
    (namedData name).Steady (fun w d => w.Has d.singletons) w := by
  refine (steady_lookUp "data" name Binding.data?).mono ?_
  rintro w' v - ⟨_ | _ | _ | _, hb, hv⟩ <;> cases hv
  exact hb

theorem steady_namedTrait (name : String) : (namedTrait name).Steady HasTraitId w := by
  refine (steady_lookUp "trait" name Binding.trait?).mono ?_
  rintro w' v - ⟨_ | _ | _ | _ | _ | _, hb, hv⟩ <;> cases hv
  exact hb

theorem steady_namedVariant (data variant : String) :
    (namedVariant data variant).Steady (fun _ _ => True) w :=
  (steady_namedData data).bind fun _ _ _ _ => steady_lift fun _ _ _ _ => trivial

/-! ### Parts of values -/

theorem steady_written (v : Value) : (query (.written v)).Steady (fun _ _ => True) w :=
  steady_query fun _ _ _ _ _ _ => trivial

theorem steady_content (v : Value) :
    (query (.content v)).Steady (fun w c? => ∀ c, c? = some c → w.Has c.children) w :=
  steady_query fun _ _ _ hfit _ ho _ hc => (hfit.content hc).onward ho

theorem steady_unexpected (what : Expectation) (found : Value) :
    (unexpected what found : Program α).Steady post w :=
  (steady_written found).bind fun _ _ _ _ => steady_fail _

theorem steady_expectInstance (v : Value) :
    (expectInstance v).Steady (fun w found => w.Has found.2.2) w := by
  refine (steady_content v).bind fun w' c? _ hc => ?_
  split
  · exact steady_pure fun w'' ho => (hc _ rfl).onward ho
  · exact steady_unexpected _ _

theorem steady_expectRecord (v : Value) :
    (expectRecord v).Steady (fun w entries => w.Has (entries.map (·.2))) w := by
  refine (steady_content v).bind fun w' c? _ hc => ?_
  split
  · exact steady_pure fun w'' ho => (hc _ rfl).onward ho
  · exact steady_unexpected _ _

theorem steady_expectInt (v : Value) : (expectInt v).Steady (fun _ _ => True) w := by
  unfold expectInt
  split
  · exact steady_pure fun _ _ => trivial
  · exact steady_unexpected _ _

theorem steady_expectFloat (v : Value) : (expectFloat v).Steady (fun _ _ => True) w := by
  unfold expectFloat
  split
  · exact steady_pure fun _ _ => trivial
  · exact steady_unexpected _ _

theorem steady_itemsOf (v : Value) : (itemsOf v).Steady Has w := by
  refine (steady_content v).bind fun w' c? _ hc => ?_
  split
  · exact steady_pure fun w'' ho => (hc _ rfl).onward ho
  · exact steady_pure fun _ _ => has_nil

theorem steady_entriesOf (v : Value) :
    (entriesOf v).Steady (fun w entries => w.Has (entries.map (·.2))) w := by
  refine (steady_content v).bind fun w' c? _ hc => ?_
  split
  · exact steady_pure fun w'' ho => (hc _ rfl).onward ho
  · exact steady_pure fun _ _ => has_nil

theorem steady_plainText (v : Value) : (plainText v).Steady (fun _ _ => True) w := by
  unfold plainText
  split
  · exact steady_pure fun _ _ => trivial
  · exact steady_written _

/-! ### Fields -/

theorem steady_readField (v : Value) (name : String) : (readField v name).Steady HasValue w := by
  refine (steady_expectInstance v).bind fun w' found _ _ => ?_
  dsimp only
  split
  · exact steady_perform trivial
  · exact steady_fail _

theorem steady_readFieldAt (v : Value) (index : Nat) : (readFieldAt v index).Steady HasValue w :=
  (steady_expectInstance v).bind fun _ _ _ _ => steady_perform trivial

theorem steady_readFields (id : ObjectId) (count index : Nat) :
    (readFields id count index).Steady Has w := by
  induction count generalizing index w with
  | zero => exact steady_pure fun _ _ => has_nil
  | succ n ih =>
    refine (steady_perform (r := .read id index) trivial).bind fun w₁ v _ hv => (ih (index + 1)).bind
      fun w₂ rest ho hrest => steady_pure fun w₃ ho' => ?_
    exact has_cons.mpr ⟨hv.onward (ho.trans ho'), hrest.onward ho'⟩

theorem steady_readEntries (id : ObjectId) (names : List String) (index : Nat) :
    (readEntries id names index).Steady Has w := by
  induction names generalizing index w with
  | nil => exact steady_pure fun _ _ => has_nil
  | cons name names ih =>
    refine (steady_perform (r := .read id index) trivial).bind fun w₁ v _ hv => ?_
    have hpair : w₁.Has [.text name, v] :=
      has_cons.mpr ⟨hasValue_of_plain rfl, has_cons.mpr ⟨hv, has_nil⟩⟩
    refine (steady_newList hpair).bind fun w₂ pair _ hp => (ih (index + 1)).bind
      fun w₃ rest ho hrest => steady_pure fun w₄ ho' => ?_
    exact has_cons.mpr ⟨hp.onward (ho.trans ho'), hrest.onward ho'⟩

/-! ### Construction -/

theorem steady_constructKeyed (v : Variant) {entries : List (String × Value)}
    (h : w.Has (entries.map (·.2))) : (constructKeyed v entries).Steady HasValue w := by
  refine (steady_lift fun values hvalues w' ho => ?_).bind fun w' values _ hvalues =>
    steady_perform hvalues
  exact (h.onward ho).keyed hvalues

theorem steady_constructApply (v : Variant) {args : List Value} (h : w.Has args) :
    (constructApply v args).Steady HasValue w := by
  unfold constructApply
  split
  · next id =>
    refine (steady_entriesOf _).bind fun w₁ entries ho hentries => ?_
    refine (steady_lift fun values hvalues w₂ ho' => ?_).bind fun w₂ values _ hvalues =>
      steady_perform hvalues
    unfold Variant.ofRecord at hvalues
    split at hvalues
    · exact (hentries.onward ho').keyed hvalues
    · exact (positional_ok hvalues).1 ▸ h.onward (ho.trans ho')
  · exact steady_perform h

/-! ### Repetition -/

theorem steady_ofIteration {v? : Option Value} (h : ∀ v, v? = some v → w.HasValue v) :
    (ofIteration v?).Steady HasValue w := by
  cases v? with
  | none => exact steady_fail _
  | some v => exact steady_pure fun _ ho => (h v rfl).onward ho

theorem steady_iterate {body : Nat → Value → Program Value} (count index : Nat) {acc : Value}
    (hbody : ∀ w' index acc, w.Onward w' → w'.HasValue acc → (body index acc).Steady HasValue w')
    (hacc : w.HasValue acc) : (iterate body count index acc).Steady HasValue w := by
  induction count generalizing index acc w with
  | zero => exact steady_pure fun _ ho => hacc.onward ho
  | succ n ih =>
    refine (hbody w index acc (.refl w) hacc).bind fun w' acc' ho hacc' => ?_
    exact ih (index + 1) (fun w'' i a ho' => hbody w'' i a (ho.trans ho')) hacc'

theorem steady_reduceItems {body : Value → Value → Program Value} {items : List Value} {acc : Value}
    (hbody : ∀ w' item acc, w.Onward w' → w'.HasValue item → w'.HasValue acc →
      (body item acc).Steady HasValue w')
    (hitems : w.Has items) (hacc : w.HasValue acc) :
    (reduceItems body items acc).Steady HasValue w := by
  induction items generalizing acc w with
  | nil => exact steady_pure fun _ ho => hacc.onward ho
  | cons item rest ih =>
    obtain ⟨hitem, hrest⟩ := has_cons.mp hitems
    refine (hbody w item acc (.refl w) hitem hacc).bind fun w' acc' ho hacc' => ?_
    exact ih (fun w'' i a ho' => hbody w'' i a (ho.trans ho')) (hrest.onward ho) hacc'

theorem steady_wrapped (count : Nat) {v : Value} (h : w.HasValue v) :
    (wrapped count v).Steady HasValue w := by
  induction count generalizing v w with
  | zero => exact steady_pure fun _ ho => h.onward ho
  | succ n ih =>
    exact (steady_newList (has_cons.mpr ⟨h, has_nil⟩)).bind fun w' list _ hlist => ih hlist

end Rules

end Program

/-! ### Expressions -/

theorem Data.unit_mem {d : Data} {name : String} {v : Value} (h : d.unit name = .ok v) :
    v ∈ d.singletons := by
  unfold Data.unit Data.variant at h
  cases hvariant : d.variant? name with
  | none =>
    rw [hvariant] at h
    cases h
  | some x =>
    rw [hvariant] at h
    change x.singleton = .ok v at h
    unfold Variant.singleton at h
    split at h
    · next id hid =>
      cases h
      exact List.mem_filterMap.mpr ⟨x, List.mem_of_find?_eq_some hvariant, by rw [hid]; rfl⟩
    · cases h

/-- No value gets lost or comes in when a key is repeated. -/
theorem distinctEntries_mem {entries : List (String × Value)} {v : Value}
    (h : v ∈ (distinctEntries entries).map (·.2)) : v ∈ entries.map (·.2) := by
  revert h
  unfold distinctEntries
  -- What the fold has so far came in with the entries.
  refine List.foldlRecOn (motive := fun done : List (String × Value) =>
    v ∈ done.map (·.2) → v ∈ entries.map (·.2)) entries _ ?_ ?_
  · exact fun h => absurd h List.not_mem_nil
  · intro done ih entry hentry h
    obtain ⟨e, he, rfl⟩ := List.mem_map.mp h
    dsimp only at he
    split at he
    · obtain ⟨e', he', rfl⟩ := List.mem_map.mp he
      by_cases hkey : (e'.1 == entry.1) = true
      · rw [if_pos hkey]
        exact List.mem_map_of_mem hentry
      · rw [if_neg hkey] at ih ⊢
        exact ih (List.mem_map_of_mem he')
    · rcases List.mem_append.mp he with he | he
      · exact ih (List.mem_map_of_mem he)
      · exact List.mem_singleton.mp he ▸ List.mem_map_of_mem hentry

theorem World.Has.lookup {w : World} {entries : List (String × Value)}
    (h : w.Has (entries.map (·.2))) (key : String) :
    w.HasValue ((entries.lookup key).getD .null) := by
  cases hv : entries.lookup key with
  | none => exact hasValue_of_plain rfl
  | some v =>
    obtain ⟨before, after, rfl, _⟩ := List.lookup_eq_some_iff.mp hv
    exact h v (by simp)

/-- What a case learns of its call is plain. -/
theorem FrameInfo.hasValues (w : World) (info : FrameInfo) : w.Has info.values := by
  intro v hv
  refine hasValue_of_plain ?_
  simp only [FrameInfo.values, List.mem_cons, List.not_mem_nil, or_false] at hv
  rcases hv with rfl | rfl | rfl | rfl | rfl | rfl
  case inr.inr.inr.inr.inl => cases info.base? <;> rfl
  all_goals rfl

namespace World.HasScope
variable {w : World} {s : Scope}

/-- A scope with what an iteration has and is at. -/
theorem iteration (h : w.HasScope s) {acc item : Value} (hacc : w.HasValue acc)
    (hitem : w.HasValue item) : w.HasScope {s with acc := some acc, item := some item} :=
  ⟨h.args, fun _ hv => Option.some.inj hv ▸ hacc, fun _ hv => Option.some.inj hv ▸ hitem⟩

theorem ofArgs {args : List Value} (h : w.Has args) (inCase : Bool) :
    w.HasScope {args, inCase} := ⟨h, nofun, nofun⟩

end World.HasScope

section Expressions
open Program

mutual

/-- An expression in a scope that is in hand has one value, in hand again. -/
theorem Expr.steady_meaning (e : Expr) {s : Scope} {w : World} (hs : w.HasScope s) :
    (e.meaning s).Steady HasValue w := by
  -- Each part starts where the part before it left the world, so the scope is taken
  -- onward (`ho`) before the next.
  cases e with
  | literal l => exact steady_pure fun _ _ => hasValue_of_plain l.object?_value
  | list items => exact (steady_meanings items hs).bind fun _ _ _ h => steady_newList h
  | record entries =>
    exact (steady_entryMeanings entries hs).bind fun _ _ _ h =>
      steady_new fun v hv => h v (distinctEntries_mem hv)
  | function label body => exact steady_makeFunction label body
  | lazy body => exact steady_makeLazy _
  | knot name => exact (steady_lookUp _ _ _).bind fun _ _ _ _ => steady_makeLazy _
  | named name => exact steady_namedValue name
  | arg index =>
    unfold Expr.meaning
    split
    · next v hv => exact steady_pure fun _ ho =>
        HasValue.onward (hs.args v (List.mem_of_getElem? hv)) ho
    · exact steady_fail _
  | args => exact steady_newList hs.args
  | argCount => exact steady_pure fun _ _ => hasValue_of_plain rfl
  | acc => exact steady_ofIteration hs.acc
  | item => exact steady_ofIteration hs.item
  | new data variant args =>
    exact (steady_namedVariant data variant).bind fun _ v ho _ =>
      (steady_meanings args (hs.onward ho)).bind fun _ _ _ h => steady_perform (r := .construct v _) h
  | newKeyed data variant record =>
    exact (steady_namedVariant data variant).bind fun _ v ho _ =>
      (record.steady_meaning (hs.onward ho)).bind fun _ _ _ _ =>
        (steady_expectRecord _).bind fun _ _ _ h => steady_constructKeyed v h
  | apply data variant args =>
    exact (steady_namedVariant data variant).bind fun _ v ho _ =>
      (steady_meanings args (hs.onward ho)).bind fun _ _ _ h => steady_constructApply v h
  | unit data variant =>
    exact (steady_namedData data).bind fun _ d _ hd =>
      steady_lift fun v hv _ ho => HasValue.onward (hd v (Data.unit_mem hv)) ho
  | field of name =>
    exact (of.steady_meaning hs).bind fun _ v _ _ => steady_readField v name
  | fieldAt of index =>
    exact (of.steady_meaning hs).bind fun _ v _ _ => steady_readFieldAt v index
  | fields of =>
    exact (of.steady_meaning hs).bind fun _ v _ _ => (steady_expectInstance v).bind fun _ _ _ _ =>
      (steady_readFields _ _ _).bind fun _ _ _ h => steady_newList h
  | entries of =>
    exact (of.steady_meaning hs).bind fun _ v _ _ => (steady_expectInstance v).bind fun _ _ _ _ =>
      (steady_readEntries _ _ _).bind fun _ _ _ h => steady_newList h
  | stored of =>
    exact (of.steady_meaning hs).bind fun _ v _ _ => (steady_expectInstance v).bind fun _ _ _ h =>
      steady_newList h
  | nth of index =>
    exact (of.steady_meaning hs).bind fun _ v _ _ => (steady_itemsOf v).bind fun _ _ _ h =>
      steady_pure fun _ ho => (h.getD index).onward ho
  | entry of key =>
    exact (of.steady_meaning hs).bind fun _ v _ _ => (steady_entriesOf v).bind fun _ _ _ h =>
      steady_pure fun _ ho => (h.lookup key).onward ho
  | recur args =>
    unfold Expr.meaning
    split
    · exact (steady_meanings args hs).bind fun _ _ _ h => steady_perform (r := .recur _) h
    · exact steady_fail _
  | base args =>
    unfold Expr.meaning
    split
    · exact (steady_meanings args hs).bind fun _ _ _ h => steady_perform (r := .base _) h
    · exact steady_fail _
  | frame =>
    have hquery : (query .frame).Steady (fun _ _ => True) w :=
      steady_query fun _ _ _ _ _ _ => trivial
    unfold Expr.meaning
    split
    · refine hquery.bind fun w' info? _ _ => ?_
      split
      · exact steady_newList (FrameInfo.hasValues w' _)
      · exact steady_fail _
    · exact steady_fail _
  | call trait args =>
    exact (steady_namedTrait trait).bind fun _ _ ho hid =>
      (steady_meanings args (hs.onward ho)).bind fun _ _ ho' h =>
        steady_perform (r := .call _ _) ⟨hid.onward ho', h⟩
  | invoke function args =>
    refine (function.steady_meaning hs).bind fun _ f ho _ =>
      (steady_meanings args (hs.onward ho)).bind fun _ _ _ h => ?_
    split
    · exact steady_perform (r := .apply _ _) h
    · exact steady_unexpected _ _
  | force of =>
    refine (of.steady_meaning hs).bind fun _ v _ hv => ?_
    split
    · exact steady_perform (r := .force _) trivial
    · exact steady_pure fun _ ho => hv.onward ho
  | int op a b =>
    refine (a.steady_meaning hs).bind fun _ v ho _ => (steady_expectInt v).bind fun _ _ ho' _ =>
      (b.steady_meaning (hs.onward (ho.trans ho'))).bind fun _ v' _ _ =>
        (steady_expectInt v').bind fun _ _ _ _ => ?_
    split
    · exact steady_pure fun _ _ => hasValue_of_plain rfl
    · exact steady_fail _
  | less a b =>
    exact (a.steady_meaning hs).bind fun _ v ho _ => (steady_expectInt v).bind fun _ _ ho' _ =>
      (b.steady_meaning (hs.onward (ho.trans ho'))).bind fun _ v' _ _ =>
        (steady_expectInt v').bind fun _ _ _ _ => steady_pure fun _ _ => hasValue_of_plain rfl
  | float op a b =>
    exact (a.steady_meaning hs).bind fun _ v ho _ => (steady_expectFloat v).bind fun _ _ ho' _ =>
      (b.steady_meaning (hs.onward (ho.trans ho'))).bind fun _ v' _ _ =>
        (steady_expectFloat v').bind fun _ _ _ _ => steady_pure fun _ _ => hasValue_of_plain rfl
  | concat parts =>
    exact (steady_plainTexts parts hs).bind fun _ _ _ _ =>
      steady_pure fun _ _ => hasValue_of_plain rfl
  | written of =>
    exact (of.steady_meaning hs).bind fun _ v _ _ => (steady_written v).bind fun _ _ _ _ =>
      steady_pure fun _ _ => hasValue_of_plain rfl
  | kind of =>
    exact (of.steady_meaning hs).bind fun _ v _ _ => steady_pure fun _ _ => hasValue_of_plain rfl
  | same a b =>
    exact (a.steady_meaning hs).bind fun _ _ ho _ => (b.steady_meaning (hs.onward ho)).bind
      fun _ _ _ _ => steady_pure fun _ _ => hasValue_of_plain rfl
  | cond condition yes no =>
    refine (condition.steady_meaning hs).bind fun _ v ho _ => ?_
    split
    · exact yes.steady_meaning (hs.onward ho)
    · exact no.steady_meaning (hs.onward ho)
  | fail message => exact steady_fail _
  | log line rest => exact steady_log fun _ ho => rest.steady_meaning (hs.onward ho)
  | logged of =>
    exact (of.steady_meaning hs).bind fun _ v _ hv => (steady_plainText v).bind fun _ _ ho _ =>
      steady_log fun _ ho' => steady_pure fun _ ho'' => hv.onward ((ho.trans ho').trans ho'')
  | unify p of =>
    exact (p.steady_build hs).bind fun _ p' ho _ => (of.steady_meaning (hs.onward ho)).bind
      fun _ v _ _ => steady_perform (r := .unify p' v) trivial
  | fold count start body =>
    exact (start.steady_meaning hs).bind fun _ _ ho hacc =>
      steady_iterate count 0 (fun _ _ _ ho' hacc' => body.steady_meaning
        ((hs.onward (ho.trans ho')).iteration hacc' (hasValue_of_plain rfl))) hacc
  | reduce list start body =>
    exact (list.steady_meaning hs).bind fun _ v ho _ => (steady_itemsOf v).bind fun _ _ ho' hitems =>
      (start.steady_meaning (hs.onward (ho.trans ho'))).bind fun _ _ ho'' hacc =>
        steady_reduceItems (fun _ _ _ ho₃ hitem hacc' => body.steady_meaning
          ((hs.onward (((ho.trans ho').trans ho'').trans ho₃)).iteration hacc' hitem))
          (hitems.onward ho'') hacc
  | wrap count of => exact (of.steady_meaning hs).bind fun _ _ _ hv => steady_wrapped count hv

theorem steady_meanings (es : List Expr) {s : Scope} {w : World} (hs : w.HasScope s) :
    (meanings es s).Steady Has w := by
  cases es with
  | nil => exact steady_pure fun _ _ => has_nil
  | cons e rest =>
    exact (e.steady_meaning hs).bind fun _ _ ho hv => (steady_meanings rest (hs.onward ho)).bind
      fun _ _ ho' hvalues => steady_pure fun _ ho'' =>
        has_cons.mpr ⟨hv.onward (ho'.trans ho''), hvalues.onward ho''⟩

theorem steady_entryMeanings (entries : List (String × Expr)) {s : Scope} {w : World}
    (hs : w.HasScope s) :
    (entryMeanings entries s).Steady (fun w values => w.Has (values.map (·.2))) w := by
  cases entries with
  | nil => exact steady_pure fun _ _ => has_nil
  | cons entry rest =>
    obtain ⟨key, e⟩ := entry
    exact (e.steady_meaning hs).bind fun _ _ ho hv =>
      (steady_entryMeanings rest (hs.onward ho)).bind fun _ _ ho' hvalues =>
        steady_pure fun _ ho'' =>
          has_cons.mpr ⟨hv.onward (ho'.trans ho''), Has.onward hvalues ho''⟩

theorem steady_plainTexts (es : List Expr) {s : Scope} {w : World} (hs : w.HasScope s) :
    (plainTexts es s).Steady (fun _ _ => True) w := by
  cases es with
  | nil => exact steady_pure fun _ _ => trivial
  | cons e rest =>
    exact (e.steady_meaning hs).bind fun _ v ho _ => (steady_plainText v).bind fun _ _ ho' _ =>
      (steady_plainTexts rest (hs.onward (ho.trans ho'))).bind fun _ _ _ _ =>
        steady_pure fun _ _ => trivial

/-- What a pattern holds is in hand once it is built. -/
theorem PatternExpr.steady_build (p : PatternExpr) {s : Scope} {w : World} (hs : w.HasScope s) :
    (p.build s).Steady (fun w p => w.Has p.heldValues) w := by
  cases p with
  | wildcard => exact steady_pure fun _ _ => has_nil
  | literal e =>
    exact (e.steady_meaning hs).bind fun _ _ _ hv => steady_pure fun _ ho =>
      has_cons.mpr ⟨hv.onward ho, has_nil⟩
  | record entries =>
    exact (steady_buildEntries entries hs).bind fun _ _ _ h => steady_pure fun _ ho =>
      Has.onward h ho
  | list items =>
    exact (steady_buildItems items hs).bind fun _ _ _ h => steady_pure fun _ ho => Has.onward h ho
  | kind k => exact steady_pure fun _ _ => has_nil
  | tag data variant =>
    exact (steady_namedVariant data variant).bind fun _ _ _ _ => steady_pure fun _ _ => has_nil
  | data name =>
    exact (steady_namedData name).bind fun _ _ _ h => steady_pure fun _ ho => Has.onward h ho
  | variant data variant fields =>
    refine (steady_namedVariant data variant).bind fun _ v ho _ =>
      (steady_buildItems fields (hs.onward ho)).bind fun _ _ _ h => steady_lift fun p hp _ ho' => ?_
    unfold Pattern.ofVariant at hp
    split at hp
    · cases hp
      exact Has.onward h ho'
    · cases hp
  | named name =>
    refine (steady_lookUp "pattern" name Binding.pattern?).mono ?_
    rintro w' p - ⟨_ | _ | _ | _, hb, hv⟩ <;> cases hv
    exact hb

theorem steady_buildItems (ps : List PatternExpr) {s : Scope} {w : World} (hs : w.HasScope s) :
    (buildItems ps s).Steady (fun w ps => w.Has (Pattern.itemsHeld ps)) w := by
  cases ps with
  | nil => exact steady_pure fun _ _ => has_nil
  | cons p rest =>
    exact (p.steady_build hs).bind fun _ _ ho hp => (steady_buildItems rest (hs.onward ho)).bind
      fun _ _ ho' hps => steady_pure fun _ ho'' =>
        has_append.mpr ⟨Has.onward hp (ho'.trans ho''), Has.onward hps ho''⟩

theorem steady_buildEntries (ps : List (String × PatternExpr)) {s : Scope} {w : World}
    (hs : w.HasScope s) :
    (buildEntries ps s).Steady (fun w ps => w.Has (Pattern.entriesHeld ps)) w := by
  cases ps with
  | nil => exact steady_pure fun _ _ => has_nil
  | cons entry rest =>
    obtain ⟨key, p⟩ := entry
    exact (p.steady_build hs).bind fun _ _ ho hp => (steady_buildEntries rest (hs.onward ho)).bind
      fun _ _ ho' hps => steady_pure fun _ ho'' =>
        has_append.mpr ⟨Has.onward hp (ho'.trans ho''), Has.onward hps ho''⟩

end

end Expressions

end OpenVariants

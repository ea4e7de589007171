import OpenVariants.Proofs.Course
import OpenVariants.Proofs.Relation

/-! Unification decides the matching relation.

Whatever a sub-pattern is matched against, it is looked at as a part of the value
(`Part.look`), so records, lists and variants come down to rows of parts (`unifyParts`).
A row goes through the tests of its parts in order, and by induction on the pattern
unification goes through all its tests (`Pattern.decided`). Objects in hand stay as they are
while lazies are forced, so what the tests say of objects may be read off the heap at the
end. -/
namespace OpenVariants

open World

section
variable {P : Performer} {w w' : World} {r : Except Stop Bool}

/-! ### What is left in the end -/

/-- What a steady computation leaves behind. -/
theorem Run.Steady.keeps {x : Run α} {post : World → α → Prop} {w w' : World} {r : Except Stop α}
    (hx : x.Steady post w) (hw : w.Twin w.registries) (hrun : x w = (r, w')) :
    w.Onward w' ∧ w'.Twin w'.registries ∧ ∀ a, r = .ok a → post w' a := by
  obtain ⟨r₁, w₁, rs, hrun₁, hrun₂, ht, ho, hpost⟩ := hx w w.registries (.refl w) hw
  rw [hrun] at hrun₁
  cases hrun₁
  have hself : w' = {w' with registries := rs} := congrArg Prod.snd (hrun.symm.trans hrun₂)
  have hrs : w'.registries = rs := congrArg World.registries hself
  exact ⟨ho, hrs ▸ ht, hpost⟩

theorem Performer.Steady.force {w w' : World} (hP : P.Steady) (hw : w.Twin w.registries)
    {id : ObjectId} {outcome : Except Stop Value} (hforce : P none (.force id) w = (outcome, w')) :
    w.Onward w' ∧ w'.Twin w'.registries ∧ ∀ v, outcome = .ok v → w'.HasValue v :=
  (hP w none (.force id) trivial trivial).keeps hw hforce

/-- While lazies are forced, what is in hand stays so. -/
theorem GoesThrough.keeps {tests : List Test} (hP : P.Steady) (hw : w.Twin w.registries)
    (h : GoesThrough P tests w r w') : w.Onward w' ∧ w'.Twin w'.registries := by
  induction tests generalizing w with
  | nil =>
    obtain ⟨-, rfl⟩ := h
    exact ⟨.refl w', hw⟩
  | cons t tests ih =>
    rcases t with (_ | _) | ⟨site, id, stop | v⟩ | fault
    · obtain ⟨-, rfl⟩ := h
      exact ⟨.refl w', hw⟩
    · exact ih hw h
    · obtain ⟨ho, hw', -⟩ := hP.force hw h.1
      exact ⟨ho, hw'⟩
    · obtain ⟨w₁, hforce, hrest⟩ := h
      obtain ⟨ho, hw₁, -⟩ := hP.force hw hforce
      obtain ⟨ho', hw'⟩ := ih hw₁ hrest
      exact ⟨ho.trans ho', hw'⟩
    · obtain ⟨-, rfl⟩ := h
      exact ⟨.refl w', hw⟩

end

/-! ### Unification goes through the tests -/

/-- A computation that goes on with what a part stands for. -/
def Part.look (P : Performer) (x : Value → Run Bool) : Part → Run Bool
  | .value v => x v
  | .lazy site id => Run.at site (P none (.force id)) >>= x
  | .absent => pure false
  | .missing fault => Run.fail fault

/-- Whether each part matches, up to the first that does not. -/
def unifyParts (P : Performer) : List Pattern → List Part → Run Bool
  | p :: ps, part :: parts => do
    if ← part.look P (unify P p) then unifyParts P ps parts else pure false
  | _, _ => pure true

section
variable {P : Performer}

theorem readField_bind (tag : Tag) (index : Nat) (v : Value) (x : Value → Run Bool) :
    (readField P tag index v >>= x) = (Part.ofField tag index v).look P x := by
  cases v <;> rfl

theorem indexedRead_bind (tag : Tag) (values : List Value) (index : Nat) (x : Value → Run Bool) :
    (indexedRead P tag values index >>= x) = (Part.ofPosition tag values index).look P x := by
  unfold indexedRead Part.ofPosition
  cases values[index]? with
  | some v => exact readField_bind tag index v x
  | none => rfl

theorem entryRead_elim (values : List (String × Value)) (key : String) (x : Value → Run Bool) :
    ((values.lookup key).map pure).elim (pure false) (· >>= x) =
      (Part.ofEntry values key).look P x := by
  unfold Part.ofEntry
  cases values.lookup key <;> rfl

theorem nameRead_elim (tag : Tag) (values : List Value) (key : String) (x : Value → Run Bool) :
    ((tag.fieldIndex? key).bind ((fieldReads P tag values)[·]?)).elim (pure false) (· >>= x) =
      (Part.ofName tag values key).look P x := by
  unfold Part.ofName
  cases tag.fieldIndex? key with
  | none => rfl
  | some index =>
    simp only [Option.bind_some, fieldReads, List.getElem?_mapIdx]
    cases values[index]? with
    | none => rfl
    | some v => exact readField_bind tag index v x

theorem unifyItems_eq_parts {ps : List Pattern} {reads : List (Run Value)} {parts : List Part}
    (h : List.Forall₂ (fun read part => ∀ x, (read >>= x) = part.look P x) reads parts) :
    unifyItems P ps reads = unifyParts P ps parts := by
  induction ps generalizing reads parts with
  | nil => simp only [unifyItems, unifyParts]
  | cons p ps ih =>
    cases h with
    | nil => simp only [unifyItems, unifyParts]
    | cons hread hrest => simp only [unifyItems, unifyParts, ← hread, bind_assoc, ih hrest]

theorem unifyEntries_eq_parts {entries : List (String × Pattern)}
    {read? : String → Option (Run Value)} {part : String → Part}
    (h : ∀ key x, (read? key).elim (pure false) (· >>= x) = (part key).look P x) :
    unifyEntries P entries read? =
      unifyParts P (entries.map (·.2)) (entries.map fun entry => part entry.1) := by
  induction entries with
  | nil => simp only [unifyEntries, unifyParts, List.map_nil]
  | cons entry entries ih =>
    obtain ⟨key, p⟩ := entry
    simp only [unifyEntries, unifyParts, List.map_cons, ← h, ih]
    cases read? key with
    | none => simp
    | some read => simp

/-! #### What is looked at in a world -/

theorem fieldReads_parts (tag : Tag) (values : List Value) :
    List.Forall₂ (fun read part => ∀ x, (read >>= x) = part.look P x) (fieldReads P tag values)
      (values.mapIdx (Part.ofField tag)) := by
  refine List.forall₂_iff_get.mpr ⟨by simp [fieldReads], fun i hi hi' x => ?_⟩
  simp only [List.get_eq_getElem, fieldReads, List.getElem_mapIdx]
  exact readField_bind tag i _ x

theorem unify_record (entries : List (String × Pattern)) (v : Value) (w : World) :
    unify P (.record entries) v w =
      ((w.heap.keyed? v).elim (pure false) fun part =>
        unifyParts P (entries.map (·.2)) (entries.map fun entry => part entry.1)) w := by
  rw [unify, Run.bind_apply, Run.get_apply]
  refine congrFun ?_ w
  split
  · next values hcontent =>
    simp only [Heap.keyed?, hcontent, Option.elim_some]
    exact unifyEntries_eq_parts (entryRead_elim values)
  · next tag values hcontent =>
    simp only [Heap.keyed?, hcontent, Option.elim_some]
    exact unifyEntries_eq_parts (nameRead_elim tag values)
  · next hrecord hinst =>
    rw [Heap.keyed?_eq_none hrecord hinst]
    rfl

theorem unify_list (items : List Pattern) (v : Value) (w : World) :
    unify P (.list items) v w =
      ((w.heap.parts? v).elim (pure false) fun parts =>
        if parts.length = items.length then unifyParts P items parts else pure false) w := by
  rw [unify, Run.bind_apply, Run.get_apply]
  refine congrFun ?_ w
  split
  · next values hcontent =>
    have hreads : List.Forall₂ (fun read part => ∀ x, (read >>= x) = Part.look P x part)
        (values.map pure) (values.map .value) := by
      rw [List.forall₂_map_left_iff, List.forall₂_map_right_iff, List.forall₂_same]
      exact fun u _ x => pure_bind u x
    simp only [Heap.parts?, hcontent, Option.elim_some, List.length_map,
      unifyItems_eq_parts hreads]
  · next tag values hcontent =>
    simp only [Heap.parts?, hcontent, Option.elim_some, List.length_mapIdx,
      unifyItems_eq_parts (fieldReads_parts tag values)]
  · next hlist hinst =>
    rw [Heap.parts?_eq_none hlist hinst]
    rfl

theorem unify_variant (t : Tag) (fields : List Pattern) (v : Value) (w : World) :
    unify P (.variant t fields) v w =
      ((w.heap.instance? v).elim (pure false) fun (tag, values) =>
        if tag.same t then
          unifyParts P fields (fields.mapIdx fun i _ => Part.ofPosition tag values i)
        else pure false) w := by
  rw [unify, Run.bind_apply, Run.get_apply]
  refine congrFun ?_ w
  cases w.heap.instance? v with
  | none => rfl
  | some found =>
    obtain ⟨tag, values⟩ := found
    have hreads : List.Forall₂ (fun read part => ∀ x, (read >>= x) = part.look P x)
        (fields.mapIdx fun i _ => indexedRead P tag values i)
        (fields.mapIdx fun i _ => Part.ofPosition tag values i) := by
      refine List.forall₂_iff_get.mpr ⟨by simp, fun i hi hi' x => ?_⟩
      simp only [List.get_eq_getElem, List.getElem_mapIdx]
      exact indexedRead_bind tag values i x
    simp only [Option.elim_some, unifyItems_eq_parts hreads]

/-! #### One after the other -/

theorem Run.pure_eq_iff {a : α} {w w' : World} {r : Except Stop α} :
    (pure a : Run α) w = (r, w') ↔ r = .ok a ∧ w' = w := by
  rw [Run.pure_apply, Prod.mk.injEq]
  exact and_congr eq_comm eq_comm

theorem Run.ite_of_true {x y : Run Bool} {w w₁ : World} (hx : x w = (.ok true, w₁)) :
    (x >>= fun matched => if matched then y else pure false) w = y w₁ := by
  rw [Run.bind_apply, hx]
  rfl

theorem Run.ite_of_ne {x y : Run Bool} {w w₁ : World} {r : Except Stop Bool}
    (hx : x w = (r, w₁)) (hr : r ≠ .ok true) :
    (x >>= fun matched => if matched then y else pure false) w = (r, w₁) := by
  rw [Run.bind_apply, hx]
  rcases r with stop | _ | _
  · rfl
  · rfl
  · exact absurd rfl hr

/-- Of two computations the second is made only if the first gives `true`. -/
theorem Run.ite_eq_iff {x y : Run Bool} {w w' : World} {r : Except Stop Bool} :
    (x >>= fun matched => if matched then y else pure false) w = (r, w') ↔
      (∃ w₁, x w = (.ok true, w₁) ∧ y w₁ = (r, w')) ∨ r ≠ .ok true ∧ x w = (r, w') := by
  constructor
  · intro h
    rcases hx : x w with ⟨r₁, w₁⟩
    by_cases htrue : r₁ = .ok true
    · subst htrue
      exact .inl ⟨w₁, rfl, (ite_of_true hx).symm.trans h⟩
    · cases (ite_of_ne hx htrue).symm.trans h
      exact .inr ⟨htrue, rfl⟩
  · rintro (⟨w₁, hx, hy⟩ | ⟨hr, hx⟩)
    · exact (ite_of_true hx).trans hy
    · exact ite_of_ne hx hr

/-- What a part stands for without evaluation is in hand. -/
def World.HasPart (w : World) : Part → Prop
  | .value v => w.HasValue v
  | .lazy .. | .absent | .missing _ => True

/-- Unification with the pattern goes through its tests. -/
def Pattern.Decided (P : Performer) (p : Pattern) : Prop :=
  ∀ {w w' : World} {r : Except Stop Bool} {v : Value} {h : Heap}, w.Twin w.registries →
    w.HasValue v → w'.heap.Extends h →
      (unify P p v w = (r, w') ↔ ∃ given, GoesThrough P (p.tests h v given) w r w')

theorem Part.look_iff (hP : P.Steady) {p : Pattern} (hp : p.Decided P) {w w' : World}
    {r : Except Stop Bool} {part : Part} {h : Heap} (hw : w.Twin w.registries)
    (hpart : w.HasPart part) (hext : w'.heap.Extends h) :
    part.look P (unify P p) w = (r, w') ↔
      ∃ given, GoesThrough P (part.tests given fun u => p.tests h u given) w r w' := by
  cases part with
  | value v => exact hp hw hpart hext
  | absent =>
    rw [look, Run.pure_eq_iff]
    exact (exists_const Outcomes).symm
  | missing fault =>
    rw [look, Run.fail_apply, Prod.mk.injEq]
    exact (and_congr eq_comm eq_comm).trans (exists_const Outcomes).symm
  | lazy site id =>
    rw [look, Run.bind_apply, Run.at]
    rcases hforce : P none (.force id) w with ⟨outcome, w₁⟩
    constructor
    · intro hrun
      cases outcome with
      | error stop =>
        refine ⟨fun _ => .error stop, ?_⟩
        cases stop <;> (cases hrun; exact ⟨hforce, rfl⟩)
      | ok u =>
        obtain ⟨-, hw₁, hu⟩ := hP.force hw hforce
        obtain ⟨given, hgoes⟩ := (hp hw₁ (hu u rfl) hext).mp hrun
        refine ⟨given.withOwn (.ok u), w₁, hforce, ?_⟩
        rw [Outcomes.withOwn, Except.toOption, Option.elim_some, Pattern.tests_withOwn]
        exact hgoes
    · rintro ⟨given, hgoes⟩
      rw [tests] at hgoes
      cases hgiven : given [] with
      | error stop =>
        rw [hgiven] at hgoes
        obtain ⟨hstop, rfl⟩ := hgoes
        cases hforce.symm.trans hstop
        cases stop <;> rfl
      | ok u =>
        rw [hgiven] at hgoes
        obtain ⟨w₂, hvalue, hrest⟩ := hgoes
        cases hforce.symm.trans hvalue
        obtain ⟨-, hw₁, hu⟩ := hP.force hw hforce
        exact (hp hw₁ (hu u rfl) hext).mpr ⟨given, hrest⟩

theorem World.HasPart.onward {w w' : World} {part : Part} (h : w.HasPart part)
    (ho : w.Onward w') : w'.HasPart part := by
  cases part with
  | value v => exact World.HasValue.onward h ho
  | _ => trivial

theorem unifyParts_iff (hP : P.Steady) {ps : List Pattern} (hps : ∀ p ∈ ps, p.Decided P)
    {w w' : World} {r : Except Stop Bool} {parts : List Part} {h : Heap}
    (hw : w.Twin w.registries) (hparts : ∀ part ∈ parts, w.HasPart part)
    (hext : w'.heap.Extends h) :
    unifyParts P ps parts w = (r, w') ↔
      ∃ given, GoesThrough P (itemTests h ps parts given) w r w' := by
  induction ps generalizing parts w with
  | nil =>
    simp only [unifyParts, itemTests, Run.pure_eq_iff]
    exact (exists_const Outcomes).symm
  | cons p ps ih =>
    cases parts with
    | nil =>
      simp only [unifyParts, itemTests, Run.pure_eq_iff]
      exact (exists_const Outcomes).symm
    | cons part parts =>
      have hp : p.Decided P := hps p List.mem_cons_self
      have hpart : w.HasPart part := hparts part List.mem_cons_self
      have hlater : ∀ {w₁ : World}, w.Onward w₁ → ∀ part ∈ parts, w₁.HasPart part :=
        fun ho part hmem => (hparts part (List.mem_cons_of_mem _ hmem)).onward ho
      replace ih := @ih (fun q hq => hps q (List.mem_cons_of_mem _ hq))
      simp only [unifyParts, itemTests, Run.ite_eq_iff, goesThrough_append]
      constructor
      · rintro (⟨w₁, hlook, hrun⟩ | ⟨hr, hlook⟩)
        · -- The rest goes first: where it ends, everything that was looked at is still there.
          obtain ⟨seen, hseen⟩ := (Part.look_iff hP hp hw hpart (.refl w₁.heap)).mp hlook
          obtain ⟨ho, hw₁⟩ := hseen.keeps hP hw
          obtain ⟨rest, hrest⟩ := (ih hw₁ (hlater ho)).mp hrun
          have hext₁ : w₁.heap.Extends h := (hrest.keeps hP hw₁).1.extends_.trans hext
          obtain ⟨first, hfirst⟩ := (Part.look_iff hP hp hw hpart hext₁).mp hlook
          exact ⟨.cons first rest, .inl ⟨w₁, hfirst, by rwa [Outcomes.after_cons]⟩⟩
        · obtain ⟨first, hfirst⟩ := (Part.look_iff hP hp hw hpart hext).mp hlook
          exact ⟨.cons first first, .inr ⟨hr, hfirst⟩⟩
      · rintro ⟨given, ⟨w₁, hfirst, hrest⟩ | ⟨hr, hfirst⟩⟩
        · obtain ⟨ho, hw₁⟩ := hfirst.keeps hP hw
          have hext₁ : w₁.heap.Extends h := (hrest.keeps hP hw₁).1.extends_.trans hext
          exact .inl ⟨w₁, (Part.look_iff hP hp hw hpart hext₁).mpr ⟨_, hfirst⟩,
            (ih hw₁ (hlater ho)).mpr ⟨_, hrest⟩⟩
        · exact .inr ⟨hr, (Part.look_iff hP hp hw hpart hext).mpr ⟨_, hfirst⟩⟩

/-! #### By induction on the pattern -/

theorem Heap.Proper.content?_eq {h h' : Heap} {v : Value} (hv : h.Proper v) (hext : h.Extends h') :
    h'.content? v = h.content? v := by
  unfold Heap.content?
  cases hid : v.object? with
  | none => rfl
  | some id =>
    obtain ⟨o, ho, -⟩ := hv id hid
    rw [Option.bind_some, Option.bind_some, ho, hext id o ho]

theorem World.hasPart_ofField {w : World} {tag : Tag} {values : List Value}
    (hvalues : w.Has values) {i : Nat} {v : Value} (hv : values[i]? = some v) :
    w.HasPart (Part.ofField tag i v) := by
  cases v <;> first | trivial | exact hvalues _ (List.mem_of_getElem? hv)

theorem goesThrough_check {holds : Bool} {w w' : World} {r : Except Stop Bool} :
    GoesThrough P [.check holds] w r w' ↔ r = .ok holds ∧ w' = w := by
  cases holds <;> rfl

theorem pure_eq_iff_goesThrough {holds : Bool} {w w' : World} {r : Except Stop Bool} :
    (pure holds : Run Bool) w = (r, w') ↔
      ∃ _ : Outcomes, GoesThrough P [.check holds] w r w' := by
  rw [Run.pure_eq_iff, goesThrough_check]
  exact (exists_const Outcomes).symm

theorem World.hasPart_ofEntry {w : World} {values : List (String × Value)}
    (hvalues : w.Has (Content.entries values).children) (key : String) :
    w.HasPart (Part.ofEntry values key) := by
  unfold Part.ofEntry
  cases hlookup : values.lookup key with
  | none => trivial
  | some v =>
    obtain ⟨before, after, rfl, -⟩ := List.lookup_eq_some_iff.mp hlookup
    exact hvalues v (by simp [Content.children])

theorem World.hasPart_ofName {w : World} {tag : Tag} {values : List Value}
    (hvalues : w.Has values) (name : String) : w.HasPart (Part.ofName tag values name) := by
  unfold Part.ofName
  cases tag.fieldIndex? name with
  | none => trivial
  | some index =>
    dsimp only
    cases hv : values[index]? with
    | none => trivial
    | some v => exact hasPart_ofField hvalues hv

theorem World.hasPart_ofPosition {w : World} {tag : Tag} {values : List Value}
    (hvalues : w.Has values) (i : Nat) : w.HasPart (Part.ofPosition tag values i) := by
  unfold Part.ofPosition
  cases hv : values[i]? with
  | none => trivial
  | some v => exact hasPart_ofField hvalues hv

theorem World.Fit.hasPart_keyed {w : World} (hw : w.Fit) {v : Value} {part : String → Part}
    (h : w.heap.keyed? v = some part) (key : String) : w.HasPart (part key) := by
  unfold Heap.keyed? at h
  split at h
  · next values hcontent =>
    cases h
    exact hasPart_ofEntry (hw.content hcontent) key
  · next tag values hcontent =>
    cases h
    exact hasPart_ofName (hw.content hcontent) key
  · cases h

theorem World.Fit.hasPart_parts {w : World} (hw : w.Fit) {v : Value} {parts : List Part}
    (h : w.heap.parts? v = some parts) : ∀ part ∈ parts, w.HasPart part := by
  unfold Heap.parts? at h
  intro part hpart
  split at h
  · next values hcontent =>
    cases h
    obtain ⟨u, hu, rfl⟩ := List.mem_map.mp hpart
    exact hw.content hcontent u hu
  · next tag values hcontent =>
    cases h
    obtain ⟨i, hi, rfl⟩ := List.mem_mapIdx.mp hpart
    exact hasPart_ofField (hw.content hcontent) (List.getElem?_eq_getElem hi)
  · cases h

/-- It is enough to compare in worlds between which nothing in hand is lost. -/
theorem Pattern.decided_of (hP : P.Steady) {p : Pattern}
    (hp : ∀ {w w' : World} {r : Except Stop Bool} {v : Value} {h : Heap},
      w.Twin w.registries → h.content? v = w.heap.content? v → w'.heap.Extends h →
        (unify P p v w = (r, w') ↔ ∃ given, GoesThrough P (p.tests h v given) w r w')) :
    p.Decided P := by
  intro w w' r v h hw hv hext
  have hin : w.Onward w' → h.content? v = w.heap.content? v := fun ho =>
    hv.content?_eq (ho.extends_.trans hext)
  constructor
  · intro hrun
    exact (hp hw (hin ((Run.steady_unify hP p v).keeps hw hrun).1) hext).mp hrun
  · rintro ⟨given, hgoes⟩
    exact (hp hw (hin (hgoes.keeps hP hw).1) hext).mpr ⟨given, hgoes⟩

theorem Pattern.decided (hP : P.Steady) (p : Pattern) : p.Decided P := by
  induction p using Pattern.induction with
  | wildcard =>
    refine decided_of hP fun _ _ _ => ?_
    simp only [unify, tests, Run.pure_eq_iff]
    exact (exists_const Outcomes).symm
  | literal | kind =>
    refine decided_of hP fun _ _ _ => ?_
    simp only [unify, tests]
    exact pure_eq_iff_goesThrough
  | tag | data =>
    refine decided_of hP fun _ hcontent _ => ?_
    simp only [unify, tests, Run.bind_apply, Run.get_apply, Heap.instance?, hcontent]
    exact pure_eq_iff_goesThrough
  | record entries hentries =>
    refine decided_of hP fun {w w' r v h} hw hcontent hext => ?_
    have hkeyed : h.keyed? v = w.heap.keyed? v := by simp only [Heap.keyed?, hcontent]
    rw [unify_record]
    simp only [tests, hkeyed]
    cases hlook : w.heap.keyed? v with
    | none => exact pure_eq_iff_goesThrough
    | some part =>
      simp only [entryTests_eq]
      refine unifyParts_iff hP (fun q hq => ?_) hw (fun q hq => ?_) hext
      · obtain ⟨entry, hentry, rfl⟩ := List.mem_map.mp hq
        exact hentries entry hentry
      · obtain ⟨entry, -, rfl⟩ := List.mem_map.mp hq
        exact hw.fit.hasPart_keyed hlook entry.1
  | list items hitems =>
    refine decided_of hP fun {w w' r v h} hw hcontent hext => ?_
    have hparts : h.parts? v = w.heap.parts? v := by simp only [Heap.parts?, hcontent]
    rw [unify_list]
    simp only [tests, hparts]
    cases hlook : w.heap.parts? v with
    | none => exact pure_eq_iff_goesThrough
    | some parts =>
      simp only [Option.elim_some]
      split
      · exact unifyParts_iff hP hitems hw (hw.fit.hasPart_parts hlook) hext
      · exact pure_eq_iff_goesThrough
  | variant t fields hfields =>
    refine decided_of hP fun {w w' r v h} hw hcontent hext => ?_
    have hinst : h.instance? v = w.heap.instance? v := by simp only [Heap.instance?, hcontent]
    rw [unify_variant]
    simp only [tests, hinst]
    cases hlook : w.heap.instance? v with
    | none => exact pure_eq_iff_goesThrough
    | some found =>
      obtain ⟨tag, values⟩ := found
      simp only [Option.elim_some]
      split
      · refine unifyParts_iff hP hfields hw (fun part hpart => ?_) hext
        obtain ⟨i, -, rfl⟩ := List.mem_mapIdx.mp hpart
        exact World.hasPart_ofPosition (hw.fit.instance hlook) i
      · exact pure_eq_iff_goesThrough

/-- **Unification decides the matching relation.** In a world at rest with itself, a steady
performer unifies a value in hand with a pattern by going through the tests of the pattern,
and in no other way: from the left to the right, those of a sub-pattern before those of the
next one, up to the first that does not pass. On the way it forces the lazies of the tests
up to there, each in the world that the one before left, and no other one. What ends the
match gives the result: a mismatch gives `false`, a lazy that fails gives its own error,
located at its field, and so does a position without a field, which the pattern of a variant
has only if it was made with more sub-patterns than the variant has fields.

Whatever the lazies that were not forced would have come to, the result is `true` exactly if
the value matches. If none fails it is `false` exactly if the value does not match. -/
theorem Pattern.unify_decides (hP : P.Steady) (p : Pattern) {v : Value} {w : World}
    (hw : w.Twin w.registries) (hv : w.HasValue v) (r : Except Stop Bool) (w' : World) :
    (unify P p v w = (r, w') ↔ ∃ given, GoesThrough P (p.tests w'.heap v given) w r w') ∧
      ∀ given, GoesThrough P (p.tests w'.heap v given) w r w' →
        r = ((p.tests w'.heap v given).findSome? Test.verdict).getD (.ok true) ∧
          (r = .ok true ↔ p.Matches w'.heap v given) ∧
          ((∀ t ∈ p.tests w'.heap v given, ¬t.Fails) →
            (r = .ok false ↔ ¬p.Matches w'.heap v given)) := by
  refine ⟨p.decided hP hw hv (.refl w'.heap), fun given hgoes => ?_⟩
  have htrue : r = .ok true ↔ p.Matches w'.heap v given :=
    hgoes.eq_true_iff.trans (p.forall_tests_iff w'.heap v given)
  refine ⟨hgoes.result_eq, htrue, fun hnone => ?_⟩
  rw [← htrue]
  rcases r with stop | _ | _
  · obtain ⟨t, ht, hfails⟩ := hgoes.exists_fails
    exact absurd hfails (hnone t ht)
  · exact iff_of_true rfl fun h => nomatch h
  · exact iff_of_false (fun h => nomatch h) fun h => h rfl

end

namespace Session

/-- A triple of lazies. The first one gives 1, the second one 2 and the third one fails, and
each of them writes to the log. -/
def tripleMade : World :=
  after
    [{command := .declare "R" "Triples" none [⟨"Triple", ["first", "second", "third"]⟩],
        as? := some "Triples"},
      {command := .eval (.new "Triples" "Triple"
          [.lazy (.log "first" (.literal (.int 1))), .lazy (.log "second" (.literal (.int 2))),
            .lazy (.log "third" (.fail "boom"))]), as? := some "triple"}]
    (start {})

def oneAndThree : Pattern :=
  .record [("first", .literal (.int 1)), ("second", .literal (.int 3)), ("third", .wildcard)]

/-- Unification stops at the second field, which does not match. The third one, which would
fail, is not forced. -/
theorem tripleMade_mismatch :
    Performer.Steady performAll ∧ tripleMade.Twin tripleMade.registries ∧
      tripleMade.HasValue (.inst 3) ∧
      ∀ w', w' = {tripleMade with log := ["second", "first"]} →
        ∃ given, GoesThrough performAll (oneAndThree.tests w'.heap (.inst 3) given) tripleMade
          (.ok false) w' ∧ ¬oneAndThree.Matches w'.heap (.inst 3) given := by
  have hreachable : Reachable tripleMade := ⟨{}, _, rfl⟩
  have hw : tripleMade.Twin tripleMade.registries := hreachable.atRest.twin
  have hv : tripleMade.HasValue (.inst 3) :=
    hreachable.fit.bindings ("triple", .value (.inst 3)) (List.mem_cons_self)
  refine ⟨steady_performAll, hw, hv, ?_⟩
  rintro w' rfl
  obtain ⟨hiff, hresult⟩ := oneAndThree.unify_decides steady_performAll hw hv (.ok false)
    {tripleMade with log := ["second", "first"]}
  have hrun : unify performAll oneAndThree (.inst 3) tripleMade =
      (.ok false, {tripleMade with log := ["second", "first"]}) := by
    obtain ⟨n, hn⟩ : ∃ n, nestingBound = n + 1 := ⟨999999999, rfl⟩
    rw [performAll, hn]
    rfl
  obtain ⟨given, hgoes⟩ := hiff.mp hrun
  obtain ⟨-, htrue, -⟩ := hresult given hgoes
  exact ⟨given, hgoes, fun hmatches => nomatch htrue.mpr hmatches⟩

end Session

end OpenVariants

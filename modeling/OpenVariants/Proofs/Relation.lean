import OpenVariants.Evaluation

/-! The matching relation and the tests that decide it.

Whether a value matches a pattern is a matter of the two alone, once it is known what
the lazies in the fields give (`Pattern.Matches`). It is decided by a row of tests, those of
a sub-pattern before those of the next (`Pattern.tests`): all of them pass exactly if the
value matches (`Pattern.forall_tests_iff`). To go through them is to look at them one by
one, to force a lazy when its test comes up, and to end at the first that does not pass
(`GoesThrough`). -/
namespace OpenVariants

/-! ### What sub-patterns look at -/

/-- Where a sub-pattern stands: its position in each of the patterns around it, outermost
first. -/
abbrev Place := List Nat

/-- What it comes to if the lazy of a field is forced, for each place where a sub-pattern
may look at one. -/
abbrev Outcomes := Place → Except Stop Value

namespace Outcomes

/-- The outcomes at and below the sub-pattern at a position. -/
def below (given : Outcomes) (i : Nat) : Outcomes := fun place => given (i :: place)

/-- The outcomes without those of the first sub-pattern. -/
def after (given : Outcomes) : Outcomes
  | [] => given []
  | i :: place => given ((i + 1) :: place)

/-- Outcomes for the first sub-pattern and for those after it. -/
def cons (first rest : Outcomes) : Outcomes
  | [] => rest []
  | 0 :: place => first place
  | (i + 1) :: place => rest (i :: place)

/-- The outcomes with another one for the place itself. -/
def withOwn (given : Outcomes) (outcome : Except Stop Value) : Outcomes
  | [] => outcome
  | place => given place

theorem after_cons (first rest : Outcomes) : (cons first rest).after = rest := by
  funext place
  cases place <;> rfl

end Outcomes

/-- How a sub-pattern comes to a value. -/
inductive Part where
  /-- An item, an entry, or a field without a lazy: a value that stands for itself. -/
  | value (v : Value)
  /-- A field with a lazy, which stands for what it gives. -/
  | lazy (site : FieldSite) (id : ObjectId)
  /-- A key that is not there. -/
  | absent
  /-- A position at which an instance has no field. -/
  | missing (fault : Fault)

namespace Part

/-- A field of an instance. -/
def ofField (tag : Tag) (index : Nat) : Value → Part
  | .lazy id => .lazy ⟨tag.name, (tag.fields[index]?).getD ""⟩ id
  | v => .value v

/-- The field at a position, where there may be none. -/
def ofPosition (tag : Tag) (values : List Value) (index : Nat) : Part :=
  match values[index]? with
  | some v => ofField tag index v
  | none => .missing (.construction (.unknownField tag.name s!"#{index}"))

/-- The entry of a record under a key. -/
def ofEntry (values : List (String × Value)) (key : String) : Part :=
  ((values.lookup key).map .value).getD .absent

/-- The field of an instance under a name. -/
def ofName (tag : Tag) (values : List Value) (name : String) : Part :=
  match tag.fieldIndex? name with
  | some index => (values[index]?.map (ofField tag index)).getD .absent
  | none => .absent

/-- The value that a part stands for, if there is one. -/
def value? (given : Outcomes) : Part → Option Value
  | .value v => some v
  | .lazy .. => (given []).toOption
  | .absent | .missing _ => none

end Part

namespace Heap

/-- What the items of a list pattern look at. -/
def parts? (h : Heap) (v : Value) : Option (List Part) :=
  match v, h.content? v with
  | .list _, some (.items values) => some (values.map .value)
  | .inst _, some (.fields tag values) => some (values.mapIdx (Part.ofField tag))
  | _, _ => none

/-- What the entries of a record pattern look at, by their keys. -/
def keyed? (h : Heap) (v : Value) : Option (String → Part) :=
  match v, h.content? v with
  | .record _, some (.entries values) => some (Part.ofEntry values)
  | .inst _, some (.fields tag values) => some (Part.ofName tag values)
  | _, _ => none

theorem parts?_eq_none {h : Heap} {v : Value}
    (hlist : ∀ id values, v = .list id → h.content? v = some (.items values) → False)
    (hinst : ∀ id tag values, v = .inst id → h.content? v = some (.fields tag values) → False) :
    h.parts? v = none := by
  unfold parts?
  split
  · next values hcontent => exact (hlist _ values rfl hcontent).elim
  · next tag values hcontent => exact (hinst _ tag values rfl hcontent).elim
  · rfl

theorem keyed?_eq_none {h : Heap} {v : Value}
    (hrecord : ∀ id values, v = .record id → h.content? v = some (.entries values) → False)
    (hinst : ∀ id tag values, v = .inst id → h.content? v = some (.fields tag values) → False) :
    h.keyed? v = none := by
  unfold keyed?
  split
  · next values hcontent => exact (hrecord _ values rfl hcontent).elim
  · next tag values hcontent => exact (hinst _ tag values rfl hcontent).elim
  · rfl

end Heap

/-! ### Matching -/

theorem Pattern.sizeOf_entry_lt {entries : List (String × Pattern)} {entry : String × Pattern}
    (he : entry ∈ entries) : sizeOf entry.2 < sizeOf (Pattern.record entries) := by
  have hentry : sizeOf entry < sizeOf entries := List.sizeOf_lt_of_mem he
  have hpair : sizeOf entry = 1 + sizeOf entry.1 + sizeOf entry.2 := rfl
  have hrecord : sizeOf (Pattern.record entries) = 1 + sizeOf entries := by simp
  omega

theorem Pattern.sizeOf_item_lt {items : List Pattern} {item : Pattern} (hi : item ∈ items) :
    sizeOf item < sizeOf (Pattern.list items) :=
  Nat.lt_trans (List.sizeOf_lt_of_mem hi) (by simp)

theorem Pattern.sizeOf_field_lt {t : Tag} {fields : List Pattern} {field : Pattern}
    (hf : field ∈ fields) : sizeOf field < sizeOf (Pattern.variant t fields) := by
  have hfield : sizeOf field < sizeOf fields := List.sizeOf_lt_of_mem hf
  have hvariant : sizeOf (Pattern.variant t fields) = 1 + sizeOf t + sizeOf fields := by simp
  omega

/-- Whether a value matches a pattern, where a lazy in a field stands for what it gives
and any other lazy for itself. -/
def Pattern.Matches (h : Heap) : Pattern → Value → Outcomes → Prop
  | .wildcard, _, _ => True
  | .literal expected, v, _ => v.same expected = true
  | .kind k, v, _ => v.kind = k
  | .tag t, v, _ => ∃ tag values, h.instance? v = some (tag, values) ∧ tag.same t = true
  | .data d, v, _ => ∃ tag values, h.instance? v = some (tag, values) ∧ d.hasTag tag = true
  | .record entries, v, given =>
    ∃ part, h.keyed? v = some part ∧
      ∀ i (hi : i < entries.length), ∃ u, (part entries[i].1).value? (given.below i) = some u ∧
        entries[i].2.Matches h u (given.below i)
  | .list items, v, given =>
    ∃ parts, h.parts? v = some parts ∧ ∃ hlength : parts.length = items.length,
      ∀ i (hi : i < items.length), ∃ u, parts[i].value? (given.below i) = some u ∧
        items[i].Matches h u (given.below i)
  | .variant t fields, v, given =>
    ∃ tag values, h.instance? v = some (tag, values) ∧ tag.same t = true ∧
      ∀ i (hi : i < fields.length), ∃ u,
        (Part.ofPosition tag values i).value? (given.below i) = some u ∧
          fields[i].Matches h u (given.below i)
termination_by p => sizeOf p
decreasing_by
  · exact sizeOf_entry_lt (List.getElem_mem hi)
  · exact sizeOf_item_lt (List.getElem_mem hi)
  · exact sizeOf_field_lt (List.getElem_mem hi)

/-- What holds of a pattern if it holds of its sub-patterns holds of every pattern. -/
theorem Pattern.induction {motive : Pattern → Prop} (wildcard : motive .wildcard)
    (literal : ∀ v, motive (.literal v)) (kind : ∀ k, motive (.kind k)) (tag : ∀ t, motive (.tag t))
    (data : ∀ d, motive (.data d))
    (record : ∀ entries, (∀ entry ∈ entries, motive entry.2) → motive (.record entries))
    (list : ∀ items, (∀ item ∈ items, motive item) → motive (.list items))
    (variant : ∀ t fields, (∀ field ∈ fields, motive field) → motive (.variant t fields))
    (p : Pattern) : motive p :=
  match p with
  | .wildcard => wildcard
  | .literal v => literal v
  | .kind k => kind k
  | .tag t => tag t
  | .data d => data d
  | .record entries => record entries fun entry _ =>
    Pattern.induction wildcard literal kind tag data record list variant entry.2
  | .list items => list items fun item _ =>
    Pattern.induction wildcard literal kind tag data record list variant item
  | .variant t fields => variant t fields fun field _ =>
    Pattern.induction wildcard literal kind tag data record list variant field
termination_by sizeOf p
decreasing_by
  · exact sizeOf_entry_lt (by assumption)
  · exact sizeOf_item_lt (by assumption)
  · exact sizeOf_field_lt (by assumption)

/-! ### Tests in a row -/

inductive Test where
  /-- Something that is, or is not, as the pattern has it. -/
  | check (holds : Bool)
  /-- A field with a lazy, and what it comes to if that is forced. -/
  | force (site : FieldSite) (id : ObjectId) (outcome : Except Stop Value)
  /-- A position without a field. -/
  | missing (fault : Fault)

/-- A stop, told the field at which it arose. -/
def Stop.at (site : FieldSite) : Stop → Stop
  | .fault f => .fault (f.located site)
  | .exhausted => .exhausted

namespace Test

/-- The result of the match if a test ends it. -/
def verdict : Test → Option (Except Stop Bool)
  | check true | force _ _ (.ok _) => none
  | check false => some (.ok false)
  | force site _ (.error stop) => some (.error (stop.at site))
  | missing fault => some (.error (.fault fault))

/-- The match goes on after the test. -/
def Passes (t : Test) : Prop := t.verdict = none

/-- The test ends the match with an error. -/
def Fails (t : Test) : Prop := ∃ stop, t.verdict = some (.error stop)

@[simp] theorem passes_check {holds : Bool} : (check holds).Passes ↔ holds = true := by
  cases holds <;> simp [Passes, verdict]

@[simp] theorem passes_force {site : FieldSite} {id : ObjectId} {outcome : Except Stop Value} :
    (force site id outcome).Passes ↔ ∃ v, outcome = .ok v := by
  cases outcome <;> simp [Passes, verdict]

@[simp] theorem not_passes_missing {fault : Fault} : ¬(missing fault).Passes := by
  simp [Passes, verdict]

end Test

/-- The tests by which a part is looked at; those of its value come after its own. -/
def Part.tests (given : Outcomes) (next : Value → List Test) : Part → List Test
  | .value v => next v
  | .lazy site id => .force site id (given []) :: (given []).toOption.elim [] next
  | .absent => [.check false]
  | .missing fault => [.missing fault]

mutual

/-- All tests of a pattern on a value, from left to right, those of a sub-pattern where it
stands. -/
def Pattern.tests (h : Heap) : Pattern → Value → Outcomes → List Test
  | .wildcard, _, _ => []
  | .literal expected, v, _ => [.check (v.same expected)]
  | .kind k, v, _ => [.check (v.kind == k)]
  | .tag t, v, _ => [.check ((h.instance? v).any fun (tag, _) => tag.same t)]
  | .data d, v, _ => [.check ((h.instance? v).any fun (tag, _) => d.hasTag tag)]
  | .record entries, v, given =>
    match h.keyed? v with
    | some part => entryTests h entries part given
    | none => [.check false]
  | .list items, v, given =>
    match h.parts? v with
    | some parts =>
      if parts.length = items.length then itemTests h items parts given else [.check false]
    | none => [.check false]
  | .variant t fields, v, given =>
    match h.instance? v with
    | some (tag, values) =>
      if tag.same t then
        itemTests h fields (fields.mapIdx fun i _ => Part.ofPosition tag values i) given
      else [.check false]
    | none => [.check false]

def itemTests (h : Heap) : List Pattern → List Part → Outcomes → List Test
  | p :: ps, part :: parts, given =>
    part.tests (given.below 0) (fun u => p.tests h u (given.below 0)) ++
      itemTests h ps parts given.after
  | _, _, _ => []

def entryTests (h : Heap) : List (String × Pattern) → (String → Part) → Outcomes → List Test
  | [], _, _ => []
  | (key, p) :: rest, part, given =>
    (part key).tests (given.below 0) (fun u => p.tests h u (given.below 0)) ++
      entryTests h rest part given.after

end

theorem entryTests_eq (h : Heap) (entries : List (String × Pattern)) (part : String → Part)
    (given : Outcomes) :
    entryTests h entries part given =
      itemTests h (entries.map (·.2)) (entries.map fun entry => part entry.1) given := by
  induction entries generalizing given with
  | nil => simp only [entryTests, itemTests, List.map_nil]
  | cons entry rest ih => simp only [entryTests, itemTests, List.map_cons, ih]

/-- Going through tests from a world, up to the first that does not pass: a lazy is
forced when its test comes up, and no other one is; a mismatch ends with `false`, and what
fails with its error. -/
def GoesThrough (P : Performer) : List Test → World → Except Stop Bool → World → Prop
  | [], w, r, w' => r = .ok true ∧ w' = w
  | .check true :: rest, w, r, w' => GoesThrough P rest w r w'
  | .check false :: _, w, r, w' => r = .ok false ∧ w' = w
  | .force _ id (.ok v) :: rest, w, r, w' =>
    ∃ w₁, P none (.force id) w = (.ok v, w₁) ∧ GoesThrough P rest w₁ r w'
  | .force site id (.error stop) :: _, w, r, w' =>
    P none (.force id) w = (.error stop, w') ∧ r = .error (stop.at site)
  | .missing fault :: _, w, r, w' => r = .error (.fault fault) ∧ w' = w

section
variable {P : Performer} {w w' : World} {r : Except Stop Bool}

/-! ### Going through tests -/

theorem goesThrough_append {tests rest : List Test} :
    GoesThrough P (tests ++ rest) w r w' ↔
      (∃ w₁, GoesThrough P tests w (.ok true) w₁ ∧ GoesThrough P rest w₁ r w') ∨
        r ≠ .ok true ∧ GoesThrough P tests w r w' := by
  induction tests generalizing w with
  | nil =>
    simp only [GoesThrough, List.nil_append, true_and, exists_eq_left]
    exact (or_iff_left fun h => h.1 h.2.1).symm
  | cons t tests ih =>
    rw [List.cons_append]
    rcases t with (_ | _) | ⟨site, id, stop | v⟩ | fault
    · simp +contextual [GoesThrough]
    · simp only [GoesThrough]
      exact ih
    · simp +contextual [GoesThrough]
    · simp only [GoesThrough, ih]
      constructor
      · rintro ⟨w₁, hforce, ⟨w₂, htests, hrest⟩ | ⟨hr, htests⟩⟩
        · exact .inl ⟨w₂, ⟨w₁, hforce, htests⟩, hrest⟩
        · exact .inr ⟨hr, w₁, hforce, htests⟩
      · rintro (⟨w₂, ⟨w₁, hforce, htests⟩, hrest⟩ | ⟨hr, w₁, hforce, htests⟩)
        · exact ⟨w₁, hforce, .inl ⟨w₂, htests, hrest⟩⟩
        · exact ⟨w₁, hforce, .inr ⟨hr, htests⟩⟩
    · simp +contextual [GoesThrough]

/-- The first test that does not pass decides the result. -/
theorem GoesThrough.result_eq {tests : List Test} (h : GoesThrough P tests w r w') :
    r = (tests.findSome? Test.verdict).getD (.ok true) := by
  induction tests generalizing w with
  | nil => exact h.1
  | cons t tests ih =>
    rcases t with (_ | _) | ⟨site, id, stop | v⟩ | fault
    · exact h.1
    · exact ih h
    · exact h.2
    · obtain ⟨w₁, -, hrest⟩ := h
      exact ih hrest
    · exact h.1

/-- No test ends a match with `true`. -/
theorem Test.verdict_ne_true (t : Test) : t.verdict ≠ some (.ok true) := by
  rcases t with (_ | _) | ⟨site, id, stop | v⟩ | fault <;> simp [verdict]

theorem GoesThrough.eq_true_iff {tests : List Test} (h : GoesThrough P tests w r w') :
    r = .ok true ↔ ∀ t ∈ tests, t.Passes := by
  rw [h.result_eq]
  cases hfirst : tests.findSome? Test.verdict with
  | none => exact iff_of_true rfl (List.findSome?_eq_none_iff.mp hfirst)
  | some verdict =>
    obtain ⟨t, ht, hverdict⟩ := List.exists_of_findSome?_eq_some hfirst
    refine iff_of_false (fun htrue => t.verdict_ne_true ?_) fun hall => ?_
    · exact hverdict.trans (congrArg some htrue)
    · cases (hall t ht).symm.trans hverdict

theorem GoesThrough.exists_fails {tests : List Test} {stop : Stop}
    (h : GoesThrough P tests w (.error stop) w') : ∃ t ∈ tests, t.Fails := by
  have hresult := h.result_eq
  cases hfirst : tests.findSome? Test.verdict with
  | none =>
    rw [hfirst] at hresult
    cases hresult
  | some verdict =>
    obtain ⟨t, ht, hverdict⟩ := List.exists_of_findSome?_eq_some hfirst
    rw [hfirst] at hresult
    exact ⟨t, ht, stop, hverdict.trans (congrArg some hresult.symm)⟩

/-! ### Tests and the relation -/

theorem Part.forall_tests_iff {given : Outcomes} {next : Value → List Test} {part : Part} :
    (∀ t ∈ part.tests given next, t.Passes) ↔
      ∃ v, part.value? given = some v ∧ ∀ t ∈ next v, t.Passes := by
  cases part with
  | lazy site id =>
    cases hgiven : given [] with
    | error stop => simp [tests, value?, hgiven, Except.toOption]
    | ok v => simp [tests, value?, hgiven, Except.toOption]
  | _ => simp [tests, value?]

/-- The tests of items pass exactly if each item matches its part. -/
theorem forall_itemTests_iff {h : Heap} {ps : List Pattern}
    (hps : ∀ p ∈ ps, ∀ v given, (∀ t ∈ p.tests h v given, t.Passes) ↔ p.Matches h v given)
    {parts : List Part} (hlength : parts.length = ps.length) (given : Outcomes) :
    (∀ t ∈ itemTests h ps parts given, t.Passes) ↔
      ∀ i (hi : i < ps.length), ∃ u, parts[i].value? (given.below i) = some u ∧
        ps[i].Matches h u (given.below i) := by
  induction ps generalizing parts given with
  | nil => simp [itemTests]
  | cons p ps ih =>
    obtain ⟨part, parts, rfl⟩ := List.exists_cons_of_length_eq_add_one hlength
    rw [itemTests, List.forall_mem_append, Part.forall_tests_iff,
      ih (fun q hq => hps q (List.mem_cons_of_mem _ hq)) (Nat.succ.inj hlength) given.after]
    simp only [hps p List.mem_cons_self]
    constructor
    · rintro ⟨hfirst, hrest⟩ i hi
      cases i with
      | zero => exact hfirst
      | succ i => exact hrest i (Nat.lt_of_succ_lt_succ hi)
    · intro hall
      exact ⟨hall 0 (Nat.zero_lt_succ _), fun i hi => hall (i + 1) (Nat.succ_lt_succ hi)⟩

/-- All tests of a pattern pass exactly if the value matches. -/
theorem Pattern.forall_tests_iff (h : Heap) (p : Pattern) (v : Value) (given : Outcomes) :
    (∀ t ∈ p.tests h v given, t.Passes) ↔ p.Matches h v given := by
  induction p using Pattern.induction generalizing v given with
  | wildcard | literal | kind => simp [tests, Matches]
  | tag | data =>
    rw [tests, Matches]
    simp [Option.any_eq_true]
  | record entries ih =>
    rw [tests, Matches]
    cases h.keyed? v with
    | none => simp
    | some part =>
      simp only [entryTests_eq]
      rw [forall_itemTests_iff (fun q hq => ?_) (by simp)]
      · simp
      · obtain ⟨entry, hentry, rfl⟩ := List.mem_map.mp hq
        exact ih entry hentry
  | list items ih =>
    rw [tests, Matches]
    cases h.parts? v with
    | none => simp
    | some parts =>
      dsimp only
      split
      · next hlength => simp [forall_itemTests_iff ih hlength, hlength]
      · next hlength => simp [hlength]
  | variant t fields ih =>
    rw [tests, Matches]
    cases h.instance? v with
    | none => simp
    | some found =>
      obtain ⟨tag, values⟩ := found
      dsimp only
      split
      · next hsame =>
        rw [forall_itemTests_iff ih (by simp)]
        simp only [List.getElem_mapIdx]
        constructor
        · exact fun h => ⟨tag, values, rfl, hsame, h⟩
        · rintro ⟨_, _, hfound, -, h⟩
          cases hfound
          exact h
      · next hsame => simp [hsame]

/-! ### What tests come to -/

/-- What the items below the place itself come to does not depend on the outcome there. -/
theorem itemTests_congr {h : Heap} {ps : List Pattern} {parts : List Part}
    {given given' : Outcomes} (hbelow : ∀ i, given.below i = given'.below i) :
    itemTests h ps parts given = itemTests h ps parts given' := by
  induction ps generalizing parts given given' with
  | nil => simp only [itemTests]
  | cons p ps ih =>
    cases parts with
    | nil => simp only [itemTests]
    | cons part parts =>
      simp only [itemTests, hbelow 0]
      have hafter : itemTests h ps parts given.after = itemTests h ps parts given'.after :=
        ih fun i => hbelow (i + 1)
      rw [hafter]

/-- The tests of a value do not depend on how a lazy gave the value. -/
theorem Pattern.tests_withOwn (h : Heap) (p : Pattern) (v : Value) (given : Outcomes)
    (outcome : Except Stop Value) : p.tests h v (given.withOwn outcome) = p.tests h v given := by
  have hitems : ∀ ps parts,
      itemTests h ps parts (given.withOwn outcome) = itemTests h ps parts given :=
    fun ps parts => itemTests_congr fun _ => rfl
  cases p <;> simp only [tests, entryTests_eq, hitems]

end

end OpenVariants

import Mathlib.Data.Prod.Lex
import Mathlib.Data.List.Nodup
import Mathlib.Order.Bounds.Basic
import OpenVariants.Proofs.Construction
import OpenVariants.Proofs.Fields

/-! Which declarations are accepted.

What is wrong with a specification has a place in it, and places come in reading order:
variant after variant, the name before the fields, the shape of a name before whether it is
taken (`Violation`). A declaration is made if nothing is wrong (`Acceptable`). If something
is, the check ends at the first place and nothing at all changes. -/
namespace OpenVariants

/-! ### Names -/

namespace Text

/-- An ASCII identifier with a first character of a class. -/
def IsIdentifier (first : Char → Bool) (name : String) : Prop :=
  ∃ c rest, name.toList = c :: rest ∧ first c = true ∧ ∀ x ∈ rest, x.isAlphanum = true

theorem isUpper_eq : isUpper = Char.isUpper := by
  funext c
  show (decide ('A' ≤ c) && decide (c ≤ 'Z')) = decide (c.val ≥ 'A'.val ∧ c.val ≤ 'Z'.val)
  rw [Bool.decide_and]
  rfl

theorem isLower_eq : isLower = Char.isLower := rfl

theorem isDigit_eq : isDigit = Char.isDigit := rfl

theorem isLetterOrDigit_eq : isLetterOrDigit = Char.isAlphanum := by
  funext c
  show (isUpper c || isLower c || isDigit c) = (c.isUpper || c.isLower || c.isDigit)
  rw [isUpper_eq, isLower_eq, isDigit_eq]

theorem hasShape_iff {first : Char → Bool} {name : String} :
    hasShape first name = true ↔ IsIdentifier first name := by
  unfold hasShape IsIdentifier
  cases name.toList with
  | nil => simp
  | cons c rest => simp [isLetterOrDigit_eq]

theorem isCapitalized_iff {name : String} :
    isCapitalized name = true ↔ IsIdentifier Char.isUpper name := by
  rw [isCapitalized, isUpper_eq, hasShape_iff]

theorem isCamelCase_iff {name : String} :
    isCamelCase name = true ↔ IsIdentifier Char.isLower name := by
  rw [isCamelCase, isLower_eq, hasShape_iff]

end Text

/-! ### Up to the first place -/

/-- A check of places in order: it succeeds if nothing is wrong at any of them, and else ends
with what is wrong at the first. -/
def EndsAtFirst [LE ι] (wrong : ι → Fault → Prop) : Except Fault Unit → Prop
  | .ok () => ∀ place f, ¬wrong place f
  | .error f => ∃ place, wrong place f ∧ ∀ other g, wrong other g → place ≤ other

/-- What is wrong with a name, and two places later what is wrong after it: at the first
place its shape, and at the second that it is taken. -/
def NameWrong (shaped taken : Bool) (misshapen again : Fault) (after : Nat → Fault → Prop)
    (place : Nat) (f : Fault) : Prop :=
  (place = 0 ∧ shaped = false ∧ f = misshapen) ∨ (place = 1 ∧ taken = true ∧ f = again) ∨
    ∃ next, place = next + 2 ∧ after next f

theorem EndsAtFirst.name {shaped taken : Bool} {misshapen again : Fault}
    {after : Nat → Fault → Prop} {check : Except Fault Unit} (h : EndsAtFirst after check) :
    EndsAtFirst (NameWrong shaped taken misshapen again after)
      (if !shaped then .error misshapen else if taken then .error again else check) := by
  cases shaped with
  | false => exact ⟨0, .inl ⟨rfl, rfl, rfl⟩, fun other _ _ => Nat.zero_le other⟩
  | true =>
    cases taken with
    | true =>
      refine ⟨1, .inr (.inl ⟨rfl, rfl, rfl⟩), ?_⟩
      rintro other g (⟨-, hshape, -⟩ | ⟨rfl, -⟩ | ⟨next, rfl, -⟩)
      · cases hshape
      · exact Nat.le_refl 1
      · omega
    | false =>
      have hlater : ∀ {place f}, NameWrong true false misshapen again after place f →
          ∃ next, place = next + 2 ∧ after next f := by
        rintro place f (⟨-, hshape, -⟩ | ⟨-, hagain, -⟩ | h)
        · cases hshape
        · cases hagain
        · exact h
      cases check with
      | ok =>
        intro place f hwrong
        obtain ⟨next, -, hnext⟩ := hlater hwrong
        exact h next f hnext
      | error fault =>
        obtain ⟨place, hplace, hfirst⟩ := h
        refine ⟨place + 2, .inr (.inr ⟨place, rfl, hplace⟩), fun other g hwrong => ?_⟩
        obtain ⟨next, rfl, hnext⟩ := hlater hwrong
        exact Nat.add_le_add_right (hfirst next g hnext) 2

/-! ### What is wrong with fields -/

/-- What is wrong with the fields of a variant, by places in reading order: each field has
two, one for its shape and one for whether the name is taken. -/
inductive FieldViolation (variant : String) (taken fields : List String) : Nat → Fault → Prop
  | shape {i : Nat} {field : String} (hfield : fields[i]? = some field)
      (hshape : ¬Text.IsIdentifier Char.isLower field) :
      FieldViolation variant taken fields (2 * i) (.declaration (.invalidName .field field))
  | again {i : Nat} {field : String} (hfield : fields[i]? = some field)
      (hagain : field ∈ taken ∨ field ∈ fields.take i) :
      FieldViolation variant taken fields (2 * i + 1) (.declaration (.duplicateField variant field))

section
variable {variant field : String} {taken fields : List String} {place : Nat} {f : Fault}

theorem not_fieldViolation_nil : ¬FieldViolation variant taken [] place f := by
  rintro (⟨hfield, -⟩ | ⟨hfield, -⟩) <;> cases hfield

/-- The first field comes first, and for those behind it its name is taken. -/
theorem fieldViolation_cons :
    FieldViolation variant taken (field :: fields) =
      NameWrong (Text.isCamelCase field) (taken.contains field)
        (.declaration (.invalidName .field field)) (.declaration (.duplicateField variant field))
        (FieldViolation variant (field :: taken) fields) := by
  funext place f
  rw [NameWrong, ← Bool.not_eq_true, Text.isCamelCase_iff, List.contains_iff_mem]
  refine propext ⟨?_, ?_⟩
  · rintro (@⟨i, name, hname, hshape⟩ | @⟨i, name, hname, hagain⟩)
    · cases i with
      | zero =>
        cases hname
        exact .inl ⟨rfl, hshape, rfl⟩
      | succ i => exact .inr (.inr ⟨2 * i, rfl, .shape hname hshape⟩)
    · cases i with
      | zero =>
        cases hname
        exact .inr (.inl ⟨rfl, by simpa using hagain, rfl⟩)
      | succ i => exact .inr (.inr ⟨2 * i + 1, rfl, .again hname (by simp at hagain ⊢; tauto)⟩)
  · rintro (⟨rfl, hshape, rfl⟩ | ⟨rfl, hagain, rfl⟩ | ⟨next, rfl, h⟩)
    · exact .shape (i := 0) rfl hshape
    · exact .again (i := 0) rfl (.inl hagain)
    · cases h with
      | @shape i name hname hshape => exact .shape (i := i + 1) hname hshape
      | @again i name hname hagain =>
        exact .again (i := i + 1) hname (by simp at hagain ⊢; tauto)

/-- At a place one thing can be wrong. -/
theorem FieldViolation.unique {g : Fault} (h : FieldViolation variant taken fields place f)
    (h' : FieldViolation variant taken fields place g) : f = g := by
  generalize hplace : place = other at h'
  cases h with
  | @shape i field hfield hshape =>
    cases h' with
    | @shape j field' hfield' hshape' =>
      obtain rfl : i = j := by omega
      cases hfield.symm.trans hfield'
      rfl
    | again => omega
  | @again i field hfield hagain =>
    cases h' with
    | shape => omega
    | @again j field' hfield' hagain' =>
      obtain rfl : i = j := by omega
      cases hfield.symm.trans hfield'
      rfl

/-- The check of fields ends at the first place where something is wrong. -/
theorem checkFields_first (variant : String) (taken fields : List String) :
    EndsAtFirst (FieldViolation variant taken fields) (checkFields variant taken fields) := by
  induction fields generalizing taken with
  | nil => exact fun _ _ => not_fieldViolation_nil
  | cons field fields ih =>
    rw [checkFields, fieldViolation_cons]
    exact (ih (field :: taken)).name

end

/-! ### What is wrong with variants -/

/-- What is wrong with variants, by places in reading order: the place of a variant, and the
place within it, where its name has the first two and its fields have the rest. -/
inductive Violation (taken : List String) (specs : List VariantSpec) : ℕ ×ₗ ℕ → Fault → Prop
  | shape {i : Nat} {spec : VariantSpec} (hspec : specs[i]? = some spec)
      (hshape : ¬Text.IsIdentifier Char.isUpper spec.name) :
      Violation taken specs (toLex (i, 0)) (.declaration (.invalidName .variant spec.name))
  | again {i : Nat} {spec : VariantSpec} (hspec : specs[i]? = some spec)
      (hagain : spec.name ∈ taken ∨ spec.name ∈ (specs.take i).map (·.name)) :
      Violation taken specs (toLex (i, 1)) (.declaration (.duplicateVariant spec.name))
  | field {i place : Nat} {spec : VariantSpec} {f : Fault} (hspec : specs[i]? = some spec)
      (hfield : FieldViolation spec.name [] spec.fields place f) :
      Violation taken specs (toLex (i, place + 2)) f

/-- The fault at the first place where something is wrong. -/
def FirstViolation (taken : List String) (specs : List VariantSpec) (f : Fault) : Prop :=
  ∃ place, Violation taken specs place f ∧ IsLeast {place | ∃ f, Violation taken specs place f} place

/-- A specification with nothing wrong. -/
structure Acceptable (taken : List String) (specs : List VariantSpec) : Prop where
  variants : ∀ spec ∈ specs, Text.IsIdentifier Char.isUpper spec.name
  distinct : (specs.map (·.name)).Nodup
  untaken : ∀ spec ∈ specs, spec.name ∉ taken
  fields : ∀ spec ∈ specs, ∀ field ∈ spec.fields, Text.IsIdentifier Char.isLower field
  fieldsDistinct : ∀ spec ∈ specs, spec.fields.Nodup

section
variable {taken : List String} {spec : VariantSpec} {specs : List VariantSpec} {f : Fault}

theorem not_violation_nil {place : ℕ ×ₗ ℕ} : ¬Violation taken [] place f := by
  rintro (⟨hspec, -⟩ | ⟨hspec, -⟩ | ⟨hspec, -⟩) <;> cases hspec

theorem violation_zero :
    (fun place => Violation taken (spec :: specs) (toLex (0, place))) =
      NameWrong (Text.isCapitalized spec.name) (taken.contains spec.name)
        (.declaration (.invalidName .variant spec.name)) (.declaration (.duplicateVariant spec.name))
        (FieldViolation spec.name [] spec.fields) := by
  funext place f
  rw [NameWrong, ← Bool.not_eq_true, Text.isCapitalized_iff, List.contains_iff_mem]
  refine propext ⟨?_, ?_⟩
  · generalize hat : toLex (0, place) = lexed
    rintro (⟨hspec, hshape⟩ | ⟨hspec, hagain⟩ | ⟨hspec, hfield⟩) <;> cases hat <;> cases hspec
    · exact .inl ⟨rfl, hshape, rfl⟩
    · exact .inr (.inl ⟨rfl, by simpa using hagain, rfl⟩)
    · exact .inr (.inr ⟨_, rfl, hfield⟩)
  · rintro (⟨rfl, hshape, rfl⟩ | ⟨rfl, hagain, rfl⟩ | ⟨next, rfl, h⟩)
    · exact .shape rfl hshape
    · exact .again rfl (.inl hagain)
    · exact .field rfl h

theorem violation_succ {i place : Nat} :
    Violation taken (spec :: specs) (toLex (i + 1, place)) f ↔
      Violation (spec.name :: taken) specs (toLex (i, place)) f := by
  constructor
  · generalize hat : toLex (i + 1, place) = lexed
    rintro (⟨hspec, hshape⟩ | ⟨hspec, hagain⟩ | ⟨hspec, hfield⟩) <;> cases hat
    · exact .shape hspec hshape
    · exact .again hspec (by simp at hagain ⊢; tauto)
    · exact .field hspec hfield
  · generalize hat : toLex (i, place) = lexed
    rintro (⟨hspec, hshape⟩ | ⟨hspec, hagain⟩ | ⟨hspec, hfield⟩) <;> cases hat
    · exact .shape hspec hshape
    · exact .again hspec (by simp at hagain ⊢; tauto)
    · exact .field hspec hfield

theorem Violation.unique {place : ℕ ×ₗ ℕ} {g : Fault} (h : Violation taken specs place f)
    (h' : Violation taken specs place g) : f = g := by
  generalize hplace : place = other at h'
  cases h with
  | shape hspec | again hspec =>
    rcases h' with ⟨hspec', -⟩ | ⟨hspec', -⟩ | ⟨hspec', -⟩ <;> cases hplace
    cases hspec.symm.trans hspec'
    rfl
  | field hspec hfield =>
    rcases h' with ⟨hspec', -⟩ | ⟨hspec', -⟩ | ⟨hspec', hfield'⟩ <;> cases hplace
    cases hspec.symm.trans hspec'
    exact hfield.unique hfield'

theorem FirstViolation.unique {g : Fault} (h : FirstViolation taken specs f)
    (h' : FirstViolation taken specs g) : f = g := by
  obtain ⟨place, h, hleast⟩ := h
  obtain ⟨other, h', hleast'⟩ := h'
  cases hleast.unique hleast'
  exact h.unique h'

/-- What is wrong with the first variant comes before what is wrong with the others. -/
theorem EndsAtFirst.variant {first rest : Except Fault Unit}
    (hfirst : EndsAtFirst (fun place => Violation taken (spec :: specs) (toLex (0, place))) first)
    (hrest : EndsAtFirst (Violation (spec.name :: taken) specs) rest) :
    EndsAtFirst (Violation taken (spec :: specs)) (first >>= fun _ => rest) := by
  cases first with
  | error fault =>
    obtain ⟨place, hplace, hleast⟩ := hfirst
    refine ⟨_, hplace, ?_⟩
    rintro ⟨i, other⟩ g hother
    cases i with
    | zero => exact Prod.Lex.toLex_le_toLex.mpr (.inr ⟨rfl, hleast other g hother⟩)
    | succ i => exact Prod.Lex.toLex_le_toLex.mpr (.inl (Nat.zero_lt_succ i))
  | ok =>
    cases rest with
    | ok =>
      rintro ⟨i, place⟩ f hwrong
      cases i with
      | zero => exact hfirst place f hwrong
      | succ i => exact hrest _ f (violation_succ.mp hwrong)
    | error fault =>
      obtain ⟨⟨i, place⟩, hplace, hleast⟩ := hrest
      refine ⟨toLex (i + 1, place), violation_succ.mpr hplace, ?_⟩
      rintro ⟨j, other⟩ g hother
      cases j with
      | zero => exact absurd hother (hfirst other g)
      | succ j =>
        have hle : toLex (i, place) ≤ toLex (j, other) := hleast _ g (violation_succ.mp hother)
        refine Prod.Lex.toLex_le_toLex.mpr ?_
        exact (Prod.Lex.toLex_le_toLex.mp hle).imp Nat.succ_lt_succ fun hlast =>
          ⟨congrArg Nat.succ hlast.1, hlast.2⟩

/-- A variant is checked before the others: its name, and then its fields. -/
theorem checkVariants_cons_eq (taken : List String) (spec : VariantSpec)
    (specs : List VariantSpec) :
    checkVariants taken (spec :: specs) =
      (if !Text.isCapitalized spec.name then
          .error (.declaration (.invalidName .variant spec.name))
        else if taken.contains spec.name then
          .error (.declaration (.duplicateVariant spec.name))
        else checkFields spec.name [] spec.fields) >>= fun _ =>
      checkVariants (spec.name :: taken) specs := by
  rw [checkVariants]
  split_ifs
  · rfl
  · rfl
  · cases checkFields spec.name [] spec.fields <;> rfl

/-- The check of variants ends at the first place where something is wrong. -/
theorem checkVariants_first (taken : List String) (specs : List VariantSpec) :
    EndsAtFirst (Violation taken specs) (checkVariants taken specs) := by
  induction specs generalizing taken with
  | nil => exact fun _ _ => not_violation_nil
  | cons spec specs ih =>
    rw [checkVariants_cons_eq]
    refine .variant ?_ (ih (spec.name :: taken))
    rw [violation_zero]
    exact (checkFields_first spec.name [] spec.fields).name

/-- The fault with which the check ends is the one at the first place where something is
wrong. -/
theorem EndsAtFirst.firstViolation (h : EndsAtFirst (Violation taken specs) (.error f)) :
    FirstViolation taken specs f := by
  obtain ⟨place, hplace, hleast⟩ := h
  exact ⟨place, hplace, ⟨f, hplace⟩, fun _ ⟨g, hother⟩ => hleast _ g hother⟩

end

/-! ### Nothing wrong -/

/-- Entries differ if none is among those before it. -/
theorem nodup_iff_forall_take {l : List String} :
    l.Nodup ↔ ∀ (i : Nat) x, l[i]? = some x → x ∉ l.take i := by
  rw [List.nodup_iff_getElem?_ne_getElem?]
  constructor
  · intro h i x hx hmem
    obtain ⟨j, hj, rfl⟩ := List.mem_take_iff_getElem.mp hmem
    obtain ⟨hji, hlength⟩ := Nat.lt_min.mp hj
    have hi : i < l.length := (List.getElem?_eq_some_iff.mp hx).1
    exact h j i hji hi ((List.getElem?_eq_getElem hlength).trans hx.symm)
  · intro h j i hji hi heq
    have hj : j < l.length := Nat.lt_trans hji hi
    rw [List.getElem?_eq_getElem hj] at heq
    exact h i l[j] heq.symm (List.mem_take_iff_getElem.mpr ⟨j, Nat.lt_min.mpr ⟨hji, hj⟩, rfl⟩)

theorem acceptable_iff {taken : List String} {specs : List VariantSpec} :
    Acceptable taken specs ↔ ∀ place f, ¬Violation taken specs place f := by
  constructor
  · rintro h place f (@⟨i, spec, hspec, hshape⟩ | @⟨i, spec, hspec, hagain⟩ |
      @⟨i, place, spec, f, hspec, hfield⟩)
    · exact hshape (h.variants spec (List.mem_of_getElem? hspec))
    · rcases hagain with htaken | hagain
      · exact h.untaken spec (List.mem_of_getElem? hspec) htaken
      · refine nodup_iff_forall_take.mp h.distinct i spec.name (by simp [hspec]) ?_
        rwa [List.map_take] at hagain
    · have hmem := List.mem_of_getElem? hspec
      cases hfield with
      | shape hname hshape => exact hshape (h.fields spec hmem _ (List.mem_of_getElem? hname))
      | @again j name hname hagain =>
        rcases hagain with htaken | hagain
        · cases htaken
        · exact nodup_iff_forall_take.mp (h.fieldsDistinct spec hmem) j name hname hagain
  · intro h
    have hplace : ∀ spec ∈ specs, ∃ i, specs[i]? = some spec := fun spec hmem =>
      List.getElem?_of_mem hmem
    refine ⟨fun spec hmem => ?_, ?_, fun spec hmem => ?_, fun spec hmem name hname => ?_,
      fun spec hmem => ?_⟩
    · obtain ⟨i, hspec⟩ := hplace spec hmem
      exact not_not.mp fun hshape => h _ _ (.shape hspec hshape)
    · refine nodup_iff_forall_take.mpr fun i name hname hagain => ?_
      rw [List.getElem?_map, Option.map_eq_some_iff] at hname
      obtain ⟨spec, hspec, rfl⟩ := hname
      exact h _ _ (.again hspec (.inr (by rwa [List.map_take])))
    · obtain ⟨i, hspec⟩ := hplace spec hmem
      exact fun htaken => h _ _ (.again hspec (.inl htaken))
    · obtain ⟨i, hspec⟩ := hplace spec hmem
      obtain ⟨j, hfield⟩ := List.getElem?_of_mem hname
      exact not_not.mp fun hshape => h _ _ (.field hspec (.shape hfield hshape))
    · obtain ⟨i, hspec⟩ := hplace spec hmem
      exact nodup_iff_forall_take.mpr fun j name hfield hagain =>
        h _ _ (.field hspec (.again hfield (.inr hagain)))

/-! ### Declaring -/

theorem declare_of_ok {r : RegistryId} {name : String} {base? : Option Data}
    {specs : List VariantSpec} (w : World)
    (hcheck : checkVariants ((base?.map Data.variantNames).getD []) specs = .ok ()) :
    declare r name base? specs w =
      (.ok (World.addData r name base? specs w).1, (World.addData r name base? specs w).2) := by
  simp only [declare, Run.bind_apply, Run.lift_apply, hcheck, Run.change_apply]

theorem declare_of_error {r : RegistryId} {name : String} {base? : Option Data}
    {specs : List VariantSpec} {f : Fault} (w : World)
    (hcheck : checkVariants ((base?.map Data.variantNames).getD []) specs = .error f) :
    declare r name base? specs w = (.error (.fault f), w) := by
  simp only [declare, Run.bind_apply, Run.lift_apply, hcheck]

theorem World.tagsOf_own (declared : List (RegistryId × Tag)) (r : RegistryId) (own : List Variant) :
    World.tagsOf (declared ++ own.map fun v => (r, v.tag)) r =
      World.tagsOf declared r ++ own.map (·.tag) := by
  simp [World.tagsOf, List.filter_map, Function.comp_def]

namespace Holder
variable {k : Holder} {r : RegistryId} {reg : Registry} {name : String} {base? : Option Data}
  {specs : List VariantSpec} {d : Data} {w : World}

/-- Data as a program declared it in a registry. -/
structure Declared (k : Holder) (r : RegistryId) (reg : Registry) (base? : Option Data)
    (specs : List VariantSpec) (d : Data) (w : World) : Prop where
  /-- The variants of the base come first. -/
  variants : d.variants = (base?.map Data.variants).getD [] ++ d.own base?
  names : (d.own base?).map (·.tag.name) = specs.map (·.name)
  fields : (d.own base?).map (·.tag.fields) = specs.map (·.fields)
  ids : (d.own base?).map (·.tag.id) =
    (List.range specs.length).map fun i => reg.nextTag + UInt32.ofNat i
  next : ∃ reg', w.registries[r]? = some reg' ∧
    reg'.nextTag = reg.nextTag + UInt32.ofNat specs.length
  /-- With ids to spare each id of the registry is that of one tag. -/
  fresh : k.client.variantCount r + specs.length ≤ UInt32.size →
    ((World.tagsOf k.client.declared r ++ (d.own base?).map (·.tag)).map (·.id)).Nodup
  found : ∀ v ∈ d.variants, d.variant v.tag.name = .ok v

theorem nodup_ids {tags : List Tag} (hids : ∀ i tag, tags[i]? = some tag → tag.id = UInt32.ofNat i)
    (hlength : tags.length ≤ UInt32.size) : (tags.map (·.id)).Nodup := by
  refine List.nodup_iff_getElem?_ne_getElem?.mpr fun i j hij hj heq => ?_
  rw [List.length_map] at hj
  have hi : i < tags.length := Nat.lt_trans hij hj
  simp only [List.getElem?_map, List.getElem?_eq_getElem hi, List.getElem?_eq_getElem hj,
    Option.map_some, Option.some.injEq, hids i _ (List.getElem?_eq_getElem hi),
    hids j _ (List.getElem?_eq_getElem hj)] at heq
  have heq' := congrArg UInt32.toNat heq
  rw [UInt32.toNat_ofNat_of_lt' (Nat.lt_of_lt_of_le hi hlength),
    UInt32.toNat_ofNat_of_lt' (Nat.lt_of_lt_of_le hj hlength)] at heq'
  exact Nat.ne_of_lt hij heq'

/-- Tags behind others have the next ids, in order. -/
theorem ids_next {tags own : List Tag}
    (hids : ∀ i tag, (tags ++ own)[i]? = some tag → tag.id = UInt32.ofNat i) :
    own.map (·.id) =
      (List.range own.length).map fun i => UInt32.ofNat tags.length + UInt32.ofNat i := by
  refine List.ext_getElem (by simp) fun i hi _ => ?_
  rw [List.length_map] at hi
  have htag : (tags ++ own)[tags.length + i]? = some own[i] := by
    rw [List.getElem?_append_right (Nat.le_add_right _ _), Nat.add_sub_cancel_left]
    exact List.getElem?_eq_getElem hi
  simp [hids _ _ htag, UInt32.ofNat_add]

theorem Sound.declared (hs : k.Sound) (hreg : k.world.registries[r]? = some reg)
    (hb : ∀ b, base? = some b → b ∈ k.data)
    (hrun : OpenVariants.declare r name base? specs k.world = (.ok d, w)) :
    k.Declared r reg base? specs d w := by
  have hr : r < k.world.registries.size := (Array.getElem?_eq_some_iff.mp hreg).1
  have hs₁ := hs.step (hs.declare hr hb hrun)
  obtain ⟨-, owner, hown, hvariants, hw⟩ := World.declare_ok hrun
  have hswept := World.withData_swept k.world r
  obtain ⟨-, hnames⟩ := (hs.client.world.swept hswept).addVariants (hswept.size ▸ hr) owner specs
  have hfields := World.addVariants_fields r owner specs (k.world.withData r)
  rw [← hown] at hnames hfields
  have hlength : (d.own base?).length = specs.length := by
    simpa using congrArg List.length hnames
  obtain ⟨hnext, -⟩ := (hs.client.world.registries r reg hreg).2
  have htags := World.tagsOf_own k.client.declared r (d.own base?)
  have hr' : r < w.registries.size := by
    have hsize := (hs.client.world.declare hr (fun b h => hs.client.data b (hb b h)) hrun).1.size
    rwa [hsize]
  obtain ⟨reg', hreg'⟩ : ∃ reg', w.registries[r]? = some reg' := ⟨_, Array.getElem?_eq_getElem hr'⟩
  obtain ⟨hnext', hids⟩ := (hs₁.client.world.registries r reg' hreg').2
  rw [withData, htags] at hnext' hids
  refine ⟨hvariants, hnames, hfields, ?_, ⟨reg', hreg', ?_⟩, fun hspare => ?_, fun v hv => ?_⟩
  · have hnew := ids_next hids
    rwa [List.map_map, List.length_map, hlength, ← hnext] at hnew
  · simp [hnext', hnext, hlength, UInt32.ofNat_add]
  · refine nodup_ids hids ?_
    rw [List.length_append, List.length_map, hlength, Client.tagsOf_length]
    exact hspare
  · have hgood : d.Good (k.withData r base? d w).client.declared w.heap :=
      hs₁.client.data d List.mem_cons_self
    have hfound : d.variant? v.tag.name = some v := hgood.variant?_eq hv
    rw [Data.variant, hfound]

/-- **Declarations are accepted exactly if nothing is wrong with them.** Whatever a program
has come to, in whatever registry and whatever it extends, a declaration succeeds exactly if
each variant has the name of a variant, which no other one and no variant of the base has,
and each of its fields has the name of a field, which no other field of the variant has. If
it does not succeed, the error is the first thing that is wrong in reading order, and the
whole world is as it was. If it does, the variants of the base are followed by the new ones
in order, whose ids are the next ones of the registry in order, and each variant is found by
the name of its tag. -/
theorem Reachable.declaration_valid (hk : k.Reachable) (hreg : k.world.registries[r]? = some reg)
    (hb : ∀ b, base? = some b → b ∈ k.data) (name : String) (specs : List VariantSpec) :
    (Acceptable ((base?.map Data.variantNames).getD []) specs ↔
      ∃ d w, OpenVariants.declare r name base? specs k.world = (.ok d, w)) ∧
    (¬Acceptable ((base?.map Data.variantNames).getD []) specs →
      ∃ f, FirstViolation ((base?.map Data.variantNames).getD []) specs f) ∧
    (∀ f, FirstViolation ((base?.map Data.variantNames).getD []) specs f ↔
      OpenVariants.declare r name base? specs k.world = (.error (.fault f), k.world)) ∧
    ∀ d w, OpenVariants.declare r name base? specs k.world = (.ok d, w) →
      k.Declared r reg base? specs d w := by
  have hmade : ∀ d w, OpenVariants.declare r name base? specs k.world = (.ok d, w) →
      k.Declared r reg base? specs d w := fun d w hrun => hk.sound.declared hreg hb hrun
  have hends := checkVariants_first ((base?.map Data.variantNames).getD []) specs
  cases hcheck : checkVariants ((base?.map Data.variantNames).getD []) specs with
  | ok =>
    rw [hcheck] at hends
    have hacceptable := acceptable_iff.mpr hends
    refine ⟨iff_of_true hacceptable ⟨_, _, declare_of_ok k.world hcheck⟩,
      fun h => absurd hacceptable h, fun f => iff_of_false ?_ ?_, hmade⟩
    · rintro ⟨place, h, -⟩
      exact hends place f h
    · intro hrun
      rw [declare_of_ok k.world hcheck] at hrun
      cases hrun
  | error f =>
    rw [hcheck] at hends
    have hfirst : FirstViolation ((base?.map Data.variantNames).getD []) specs f :=
      hends.firstViolation
    have hrun : OpenVariants.declare r name base? specs k.world = (.error (.fault f), k.world) :=
      declare_of_error k.world hcheck
    refine ⟨iff_of_false ?_ ?_, fun _ => ⟨f, hfirst⟩, fun g => ?_, hmade⟩
    · intro h
      obtain ⟨place, hplace, -⟩ := hfirst
      exact acceptable_iff.mp h place f hplace
    · rintro ⟨d, w, hrun'⟩
      rw [hrun] at hrun'
      cases hrun'
    · rw [hrun]
      constructor
      · intro hg
        rw [hfirst.unique hg]
      · intro h
        cases h
        exact hfirst

/-! ### Circles and squares -/

/-- A program with a registry. -/
def bare : Holder := ⟨{world := (World.addRegistry {} {}).2}, []⟩

def circles : Data := ⟨0, 0, "Circles", [⟨⟨1, 0, "Circle", ["radius"], 0⟩, none, 0⟩], []⟩

/-- The program after it declared circles. -/
def withCircles : Holder :=
  bare.withData 0 none circles
    (World.addData 0 "Circles" none [⟨"Circle", ["radius"]⟩] bare.world).2

/-- An extension with a square is refused: it declares circles again. That one of the fields
is named twice is not reported, as it comes later. -/
theorem withCircles_refuses :
    withCircles.Reachable ∧
      ∀ specs, specs = [⟨"Square", ["side"]⟩, ⟨"Circle", ["radius", "radius"]⟩] →
        ¬Acceptable circles.variantNames specs ∧
          FirstViolation circles.variantNames specs (.declaration (.duplicateVariant "Circle")) ∧
          OpenVariants.declare 0 "Shapes" (some circles) specs withCircles.world =
            (.error (.fault (.declaration (.duplicateVariant "Circle"))), withCircles.world) := by
  have hbare : bare.Reachable := .single (.client _ (.registry {} {}) (by simp))
  have hdeclare : OpenVariants.declare 0 "Circles" none [⟨"Circle", ["radius"]⟩] bare.world =
      (.ok circles, withCircles.world) := rfl
  have hreachable : withCircles.Reachable :=
    hbare.tail (hbare.sound.declare (by decide) (by simp) hdeclare)
  have hbase : ∀ b, some circles = some b → b ∈ withCircles.data :=
    fun b hb => Option.some.inj hb ▸ List.mem_cons_self
  refine ⟨hreachable, ?_⟩
  rintro specs rfl
  obtain ⟨reg, hreg⟩ : ∃ reg, withCircles.world.registries[0]? = some reg := ⟨_, rfl⟩
  obtain ⟨haccepts, -, hrefuses, -⟩ := hreachable.declaration_valid hreg hbase "Shapes"
    [⟨"Square", ["side"]⟩, ⟨"Circle", ["radius", "radius"]⟩]
  have hrun : OpenVariants.declare 0 "Shapes" (some circles)
      [⟨"Square", ["side"]⟩, ⟨"Circle", ["radius", "radius"]⟩] withCircles.world =
        (.error (.fault (.declaration (.duplicateVariant "Circle"))), withCircles.world) := rfl
  refine ⟨fun h => ?_, (hrefuses _).mpr hrun, hrun⟩
  obtain ⟨d, w, hok⟩ := haccepts.mp h
  rw [hrun] at hok
  cases hok

end Holder

end OpenVariants

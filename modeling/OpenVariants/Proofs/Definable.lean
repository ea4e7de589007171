import OpenVariants.Proofs.Members
import OpenVariants.Proofs.Validity

/-! Which definitions of traits are accepted.

Each case has a name of the right shape, for a variant of the declaration if there is one,
and no other case has it. With a declaration the chain that comes of it has a wildcard
somewhere, or else a case for every variant (`Definable`). If that is not so, the definition
ends with what is wrong with the first case that is wrong; only if no case is does it end
with the first variant without a case (`Refusal`). `defineTrait_valid`: of the two exactly
one is so of each definition, and the definition comes to it. -/
namespace OpenVariants

namespace Trait

/-! ### The names of cases -/

/-- The wildcard, or a name that a variant can have. -/
def IsCaseName (name : String) : Prop := name = wildcard ∨ Text.IsIdentifier Char.isUpper name

/-- The wildcard, or a variant of the declaration if there is one. -/
def Known (data? : Option Data) (name : String) : Prop :=
  ∀ d, data? = some d → name = wildcard ∨ name ∈ d.variantNames

/-- Names of cases with nothing wrong. -/
structure CasesFit (data? : Option Data) (names : List String) : Prop where
  shaped : ∀ name ∈ names, IsCaseName name
  known : ∀ name ∈ names, Known data? name
  distinct : names.Nodup

/-- What is wrong with the name of a case that comes after some others. Of several things that
is the first one here. -/
inductive Offence (trait : String) (data? : Option Data) (before : List String) (name : String) :
    Fault → Prop
  | shape (hshape : ¬IsCaseName name) :
    Offence trait data? before name (.declaration (.invalidName .case name))
  | unknown (hshape : IsCaseName name) (hunknown : ¬Known data? name) :
    Offence trait data? before name (.declaration (.unknownVariant trait name))
  | again (hshape : IsCaseName name) (hknown : Known data? name) (hagain : name ∈ before) :
    Offence trait data? before name (.declaration (.duplicateCase trait name))

section Cases
variable {trait name : String} {data? : Option Data} {before after : List String} {f : Fault}

theorem isCaseName_iff :
    (name == wildcard || Text.isCapitalized name) = true ↔ IsCaseName name := by
  rw [Bool.or_eq_true, beq_iff_eq, Text.isCapitalized_iff, IsCaseName]

theorem variant?_isNone {d : Data} : (d.variant? name).isNone = true ↔ name ∉ d.variantNames := by
  simp [Data.variant?, Data.variantNames]

theorem not_known_iff :
    (!(name == wildcard) && data?.any fun d => (d.variant? name).isNone) = true ↔
      ¬Known data? name := by
  cases data? with
  | none => simp [Known]
  | some d =>
    rw [Option.any_some, Bool.and_eq_true, variant?_isNone, Bool.not_eq_true', beq_eq_false_iff_ne]
    simp [Known]

theorem CasesFit.nil (data? : Option Data) : CasesFit data? [] :=
  ⟨by simp, by simp, List.nodup_nil⟩

theorem casesFit_concat : CasesFit data? (before ++ [name]) ↔
    CasesFit data? before ∧ IsCaseName name ∧ Known data? name ∧ name ∉ before := by
  constructor
  · intro h
    have hbefore : ∀ x ∈ before, x ∈ before ++ [name] := fun _ => List.mem_append_left _
    have hname : name ∈ before ++ [name] := by simp
    have hdistinct := List.nodup_append.mp h.distinct
    refine ⟨⟨fun x hx => h.shaped x (hbefore x hx), fun x hx => h.known x (hbefore x hx),
      hdistinct.1⟩, h.shaped name hname, h.known name hname, fun hmem => ?_⟩
    exact hdistinct.2.2 name hmem name List.mem_cons_self rfl
  · intro ⟨h, hshape, hknown, hnew⟩
    refine ⟨fun x hx => ?_, fun x hx => ?_, ?_⟩
    · rcases List.mem_append.mp hx with hx | hx
      · exact h.shaped x hx
      · exact List.mem_singleton.mp hx ▸ hshape
    · rcases List.mem_append.mp hx with hx | hx
      · exact h.known x hx
      · exact List.mem_singleton.mp hx ▸ hknown
    · refine List.nodup_append.mpr ⟨h.distinct, List.nodup_singleton _, fun x hx y hy heq => ?_⟩
      cases List.mem_singleton.mp hy
      exact hnew (heq ▸ hx)

theorem CasesFit.of_append (h : CasesFit data? (before ++ after)) : CasesFit data? before where
  shaped x hx := h.shaped x (List.mem_append_left _ hx)
  known x hx := h.known x (List.mem_append_left _ hx)
  distinct := h.distinct.of_append_left

/-- Nothing is wrong with the names, or there is a first one that something is wrong with. -/
theorem casesFit_or_offence (trait : String) (data? : Option Data) (names : List String) :
    CasesFit data? names ∨ ∃ before name after, names = before ++ name :: after ∧
      CasesFit data? before ∧ ∃ f, Offence trait data? before name f := by
  refine all_or_first _ _ (CasesFit.nil data?) (fun before name hfit => ?_) names
  by_cases hshape : IsCaseName name
  · by_cases hknown : Known data? name
    · by_cases hagain : name ∈ before
      · exact .inr ⟨_, .again hshape hknown hagain⟩
      · exact .inl (casesFit_concat.mpr ⟨hfit, hshape, hknown, hagain⟩)
    · exact .inr ⟨_, .unknown hshape hknown⟩
  · exact .inr ⟨_, .shape hshape⟩

/-- A case that something is wrong with ends the check. -/
theorem checkCases_offence (h : Offence trait data? before name f) :
    checkCases trait data? before.reverse (name :: after) = .error f := by
  rw [checkCases]
  cases h with
  | shape hshape => rw [if_pos (by rwa [Bool.not_eq_true', ← Bool.not_eq_true, isCaseName_iff])]
  | unknown hshape hunknown =>
    rw [if_neg (by rwa [Bool.not_eq_true', Bool.not_eq_false, isCaseName_iff]),
      if_pos (not_known_iff.mpr hunknown)]
  | again hshape hknown hagain =>
    rw [if_neg (by rwa [Bool.not_eq_true', Bool.not_eq_false, isCaseName_iff]),
      if_neg (by rwa [not_known_iff, not_not]),
      if_pos (List.contains_iff_mem.mpr (List.mem_reverse.mpr hagain))]

/-- Names that nothing is wrong with are passed, one after the other. -/
theorem checkCases_fit (h : CasesFit data? (before ++ after)) (rest : List String) :
    checkCases trait data? before.reverse (after ++ rest) =
      checkCases trait data? (before ++ after).reverse rest := by
  induction after generalizing before with
  | nil => rw [List.append_nil, List.nil_append]
  | cons name after ih =>
    rw [List.append_cons] at h ⊢
    obtain ⟨-, hshape, hknown, hnew⟩ := casesFit_concat.mp h.of_append
    rw [List.cons_append, checkCases,
      if_neg (by rwa [Bool.not_eq_true', Bool.not_eq_false, isCaseName_iff]),
      if_neg (by rwa [not_known_iff, not_not]),
      if_neg (by rwa [List.contains_iff_mem, List.mem_reverse])]
    have hnext := ih h
    rw [List.reverse_append] at hnext
    exact hnext

theorem checkCases_of_fit {names : List String} (h : CasesFit data? names) :
    checkCases trait data? [] names = .ok () := by
  have hall := @checkCases_fit trait data? [] names h []
  rw [List.append_nil] at hall
  exact hall

theorem checkCases_of_offence (h : CasesFit data? before)
    (hoffence : Offence trait data? before name f) :
    checkCases trait data? [] (before ++ name :: after) = .error f := by
  have hskip := @checkCases_fit trait data? [] before h (name :: after)
  rw [List.nil_append, checkCases_offence hoffence] at hskip
  exact hskip

end Cases

/-- The second name is that of no variant. What is wrong later is not reported. -/
example : checkCases "area" (some Holder.circles) [] ["Circle", "Square", "circle"] =
    .error (.declaration (.unknownVariant "area" "Square")) := rfl

/-! ### Definitions -/

/-- The names of the cases of each link of the chain that a definition makes, its own first. -/
def links (base? : Option Trait) (names : List String) : List (List String) :=
  names :: ((base?.map chain).getD []).map fun layer => layer.cases.map (·.1)

/-- A variant has a case: its own or a wildcard, in any link. -/
def HasCase (links : List (List String)) (variant : String) : Prop :=
  ∃ names ∈ links, variant ∈ names ∨ wildcard ∈ names

/-- A definition with nothing wrong. -/
structure Definable (data? : Option Data) (base? : Option Trait) (names : List String) : Prop
    extends CasesFit data? names where
  covered : ∀ d, data? = some d → (∃ link ∈ links base? names, wildcard ∈ link) ∨
    ∀ variant ∈ d.variantNames, ∃ link ∈ links base? names, variant ∈ link

/-- What a definition is refused for. -/
inductive Refusal (trait : String) (data? : Option Data) (base? : Option Trait)
    (names : List String) : Fault → Prop
  /-- The case is the first one that something is wrong with. -/
  | case {before after : List String} {name : String} {f : Fault}
    (hnames : names = before ++ name :: after) (hfit : CasesFit data? before)
    (hoffence : Offence trait data? before name f) : Refusal trait data? base? names f
  /-- The variant is the first one without a case. -/
  | missing {d : Data} {earlier later : List String} {variant : String}
    (hfit : CasesFit data? names) (hdata : data? = some d)
    (hvariants : d.variantNames = earlier ++ variant :: later)
    (hfirst : ∀ x ∈ earlier, HasCase (links base? names) x)
    (hmissing : ¬HasCase (links base? names) variant) :
    Refusal trait data? base? names (.declaration (.missingCase trait variant))

section Definition
variable {id : TraitId} {name : String} {data? : Option Data} {base? : Option Trait}
  {cases : List (String × Case)} {maxDepth : Nat} {f : Fault}

theorem hasCase_iff_mem {l : Layer} : l.hasCase name = true ↔ name ∈ l.cases.map (·.1) := by
  rw [Layer.hasCase, Layer.case?, Option.isSome_iff_ne_none, ne_eq, List.lookup_eq_none_iff,
    List.mem_map]
  simp only [bne_iff_ne, ne_eq, not_forall, not_not, exists_prop]
  exact exists_congr fun p => and_congr_right fun _ => eq_comm

/-- All variants have a case if there is a wildcard, or each has one of its own. -/
theorem forall_hasCase {links : List (List String)} {variants : List String} :
    (∀ variant ∈ variants, HasCase links variant) ↔
      (∃ link ∈ links, wildcard ∈ link) ∨ ∀ variant ∈ variants, ∃ link ∈ links, variant ∈ link := by
  by_cases hwild : ∃ link ∈ links, wildcard ∈ link
  · obtain ⟨link, hlink, hmem⟩ := hwild
    exact iff_of_true (fun _ _ => ⟨link, hlink, .inr hmem⟩) (.inl ⟨link, hlink, hmem⟩)
  · rw [or_iff_right hwild]
    refine forall₂_congr fun variant _ => exists_congr fun link => and_congr_right fun hlink => ?_
    exact or_iff_left fun hmem => hwild ⟨link, hlink, hmem⟩

/-- The trait that comes of a definition resolves the variants that have a case. -/
theorem resolves_candidate {variant : String} :
    (candidate id name data? base? cases maxDepth).resolves variant = true ↔
      HasCase (links base? (cases.map (·.1))) variant := by
  simp only [resolves, chain, candidate, links, HasCase, List.any_cons, Bool.or_eq_true,
    List.any_eq_true, hasCase_iff_mem, List.exists_mem_cons_iff, List.mem_map, exists_exists_and_eq_and]

theorem uncovered?_candidate {d : Data}
    (h : ∀ variant ∈ d.variantNames, HasCase (links base? (cases.map (·.1))) variant) :
    (candidate id name data? base? cases maxDepth).uncovered? d = none :=
  List.find?_eq_none.mpr fun variant hvariant => by
    rw [resolves_candidate.mpr (h variant hvariant)]
    decide

/-- A definition with nothing wrong goes through. -/
theorem Definable.define_eq (h : Definable data? base? (cases.map (·.1))) :
    define id name data? base? cases maxDepth =
      .ok (candidate id name data? base? cases maxDepth) := by
  have hcovered : data?.bind (candidate id name data? base? cases maxDepth).uncovered? = none := by
    refine Option.bind_eq_none_iff.mpr fun d hd => ?_
    exact uncovered?_candidate (forall_hasCase.mpr (h.covered d hd))
  rw [candidate] at hcovered ⊢
  simp only [define, checkCases_of_fit h.toCasesFit, hcovered]

/-- A definition that is to be refused is refused for that. -/
theorem Refusal.define_eq (h : Refusal name data? base? (cases.map (·.1)) f) :
    define id name data? base? cases maxDepth = .error f := by
  cases h with
  | case hnames hfit hoffence => rw [define, hnames, checkCases_of_offence hfit hoffence]
  | @missing d earlier later variant hfit hdata hvariants hfirst hmissing =>
    have huncovered :
        data?.bind (candidate id name data? base? cases maxDepth).uncovered? = some variant := by
      rw [hdata, Option.bind_some, uncovered?, List.find?_eq_some_iff_append]
      refine ⟨?_, earlier, later, hvariants, fun x hx => ?_⟩
      · rwa [Bool.not_eq_true', ← Bool.not_eq_true, resolves_candidate]
      · rw [resolves_candidate.mpr (hfirst x hx)]
        rfl
    rw [candidate] at huncovered
    simp only [define, checkCases_of_fit hfit, huncovered]

/-- All variants have a case, or there is a first one without. -/
theorem forall_hasCase_or_first (links : List (List String)) (variants : List String) :
    (∀ variant ∈ variants, HasCase links variant) ∨
      ∃ earlier variant later, variants = earlier ++ variant :: later ∧
        (∀ x ∈ earlier, HasCase links x) ∧ ¬HasCase links variant := by
  refine all_or_first (fun l => ∀ x ∈ l, HasCase links x) (fun _ x => ¬HasCase links x)
    (List.forall_mem_nil _) (fun earlier variant hfirst => ?_) variants
  by_cases hcase : HasCase links variant
  · refine .inl fun x hx => ?_
    rcases List.mem_append.mp hx with hx | hx
    · exact hfirst x hx
    · exact List.mem_singleton.mp hx ▸ hcase
  · exact .inr hcase

/-- Nothing is wrong with a definition, or it is to be refused. -/
theorem definable_or_refusal (trait : String) (data? : Option Data) (base? : Option Trait)
    (names : List String) :
    Definable data? base? names ∨ ∃ f, Refusal trait data? base? names f := by
  rcases casesFit_or_offence trait data? names with hfit | ⟨_, _, _, hnames, hfit, f, hoffence⟩
  · cases data? with
    | none => exact .inl ⟨hfit, fun d hd => by cases hd⟩
    | some d =>
      rcases forall_hasCase_or_first (links base? names) d.variantNames with
        hall | ⟨_, _, _, hvariants, hfirst, hmissing⟩
      · refine .inl ⟨hfit, fun d' hd => ?_⟩
        cases hd
        exact forall_hasCase.mp hall
      · exact .inr ⟨_, .missing hfit rfl hvariants hfirst hmissing⟩
  · exact .inr ⟨f, .case hnames hfit hoffence⟩

/-- What is to be refused has something wrong. -/
theorem Refusal.not_definable (h : Refusal name data? base? (cases.map (·.1)) f) :
    ¬Definable data? base? (cases.map (·.1)) := by
  intro hdefinable
  have hok := @Definable.define_eq 0 name data? base? cases 0 hdefinable
  rw [h.define_eq] at hok
  cases hok

end Definition

end Trait

/-! ### Defining -/

section Defining
variable {r : RegistryId} {name : String} {data? : Option Data} {base? : Option Trait}
  {cases : List (String × Case)} {w w' : World} {id : TraitId}

theorem defineTrait_of_ok {t : Trait}
    (h : Trait.define w.traits.size name data? base? cases (registryConfig r w).maxDepth = .ok t) :
    defineTrait r name data? base? cases w = (.ok w.traits.size, (w.addTrait t).2) := by
  simp only [defineTrait, Run.bind_apply, Run.get_apply, Run.lift_apply, h, Run.change_apply]
  rfl

theorem defineTrait_of_error {f : Fault}
    (h : Trait.define w.traits.size name data? base? cases (registryConfig r w).maxDepth = .error f) :
    defineTrait r name data? base? cases w = (.error (.fault f), w) := by
  simp only [defineTrait, Run.bind_apply, Run.get_apply, Run.lift_apply, h]

/-- A trait as it was defined: the world has it in addition, and nothing else is new. -/
structure World.Defined (w : World) (r : RegistryId) (name : String) (data? : Option Data)
    (base? : Option Trait) (cases : List (String × Case)) (id : TraitId) (w' : World) : Prop where
  id_eq : id = w.traits.size
  trait : ∃ t : Trait, w' = {w with traits := w.traits.push t} ∧ t.layer.id = id ∧
    t.name = name ∧ t.layer.data? = data? ∧ t.base? = base? ∧ t.layer.cases = cases ∧
    t.isMemoized = false ∧ t.layer.maxDepth = (registryConfig r w).maxDepth

theorem Trait.base?_candidate {maxDepth : Nat} :
    (candidate id name data? base? cases maxDepth).base? = base? := by
  cases base? <;> rfl

/-- **Traits are defined exactly if nothing is wrong with their definitions.** In any world, for
a declaration or for none, as an extension of a trait or not, and with any cases: a definition
succeeds exactly if each case is the wildcard or has the shape of a variant's name, is for a
variant of the declaration if there is one, and has a name of its own, and if with a declaration
the whole chain has a wildcard somewhere or a case for each variant. If it does not succeed, the
error is what is wrong first with the first case that is wrong, or with no such case the first
variant without a case, and the world is as it was. If it does, the trait has the cases in the
order given, the declaration and the base. -/
theorem defineTrait_valid (r : RegistryId) (name : String) (data? : Option Data)
    (base? : Option Trait) (cases : List (String × Case)) (w : World) :
    (Trait.Definable data? base? (cases.map (·.1)) ↔
      ∃ id w', defineTrait r name data? base? cases w = (.ok id, w')) ∧
    (¬Trait.Definable data? base? (cases.map (·.1)) →
      ∃ f, Trait.Refusal name data? base? (cases.map (·.1)) f) ∧
    (∀ f, Trait.Refusal name data? base? (cases.map (·.1)) f ↔
      defineTrait r name data? base? cases w = (.error (.fault f), w)) ∧
    ∀ id w', defineTrait r name data? base? cases w = (.ok id, w') →
      w.Defined r name data? base? cases id w' := by
  rcases Trait.definable_or_refusal name data? base? (cases.map (·.1)) with hdefinable | ⟨f, hrefusal⟩
  · have hrun : defineTrait r name data? base? cases w = (.ok w.traits.size, _) :=
      defineTrait_of_ok hdefinable.define_eq
    refine ⟨iff_of_true hdefinable ⟨_, _, hrun⟩, fun h => absurd hdefinable h, fun f => ?_,
      fun id w' h => ?_⟩
    · refine iff_of_false (fun hrefusal => hrefusal.not_definable hdefinable) (fun h => ?_)
      rw [hrun] at h
      cases h
    · rw [hrun] at h
      cases h
      exact ⟨rfl, _, rfl, rfl, rfl, rfl, Trait.base?_candidate, rfl, rfl, rfl⟩
  · have hrun : defineTrait r name data? base? cases w = (.error (.fault f), w) :=
      defineTrait_of_error hrefusal.define_eq
    refine ⟨iff_of_false hrefusal.not_definable ?_, fun _ => ⟨f, hrefusal⟩, fun g => ?_,
      fun id w' h => ?_⟩
    · intro ⟨id, w', h⟩
      rw [hrun] at h
      cases h
    · refine ⟨fun hg => defineTrait_of_error hg.define_eq, fun h => ?_⟩
      rw [hrun] at h
      cases h
      exact hrefusal
    · rw [hrun] at h
      cases h

end Defining

end OpenVariants

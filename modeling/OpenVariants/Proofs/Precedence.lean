import OpenVariants.Proofs.Extension
import OpenVariants.Proofs.Totality

/-! Which case a call runs.

One walk along the chain looks for two things, a case of the variant's name and a wildcard.
It finds what two separate searches find: the nearest case of the name if there is one, else
the nearest wildcard (`Trait.picks_resolve?`). So a wildcard never hides a case of the name,
however much further out that is. And whoever asks about a name (a definition that checks the
variants of its declaration, a view that binds a trait, a call) gets the same answer
(`Trait.Formed.precedence`). -/
namespace OpenVariants

namespace Trait

/-! ### The nearest case of a name -/

theorem chain_injective {t u : Trait} (h : t.chain = u.chain) : t = u := by
  obtain ⟨layer, bases⟩ := t
  obtain ⟨layer', bases'⟩ := u
  cases h
  rfl

theorem link_iff_single {layer : Layer} {u : Trait} : Link ⟨layer, []⟩ u ↔ u = ⟨layer, []⟩ := by
  refine ⟨fun h => ?_, fun h => h ▸ .refl _⟩
  rcases List.suffix_cons_iff.mp h with h | h
  · exact chain_injective h
  · cases List.suffix_nil.mp h

theorem link_iff_cons {layer outer : Layer} {bases : List Layer} {u : Trait} :
    Link ⟨layer, outer :: bases⟩ u ↔ u = ⟨layer, outer :: bases⟩ ∨ Link ⟨outer, bases⟩ u := by
  refine ⟨fun h => ?_, fun h => ?_⟩
  · rcases List.suffix_cons_iff.mp h with h | h
    · exact .inl (chain_injective h)
    · exact .inr h
  · rcases h with rfl | h
    · exact .refl _
    · exact Link.trans (base_link rfl) h

/-- Two traits that override each other are one. -/
theorem Link.antisymm {t u : Trait} (htu : t.Link u) (hut : u.Link t) : t = u :=
  (chain_injective (htu.eq_of_length_le hut.length_le)).symm

/-- No link of the chain has a case of the name. -/
def Lacks (t : Trait) (name : String) : Prop := ∀ u, t.Link u → u.layer.hasCase name = false

/-- The case of a name that the nearest link with one has. -/
structure Nearest (t : Trait) (name : String) (found : Resolution) : Prop where
  link : t.Link found.owner
  own : found.owner.own? name = some found
  nearer : ∀ u, t.Link u → u.Link found.owner → u ≠ found.owner → u.layer.hasCase name = false

theorem own?_eq_none {t : Trait} {name : String} : t.own? name = none ↔ t.layer.hasCase name = false := by
  rw [← isSome_own?, Option.isSome_eq_false_iff, Option.isNone_iff_eq_none]

namespace Nearest
variable {t : Trait} {name : String} {found found' : Resolution}

theorem hasCase (h : t.Nearest name found) : found.owner.layer.hasCase name = true := by
  rw [← isSome_own?, h.own]
  rfl

theorem not_lacks (h : t.Nearest name found) : ¬t.Lacks name := fun hlacks =>
  Bool.false_ne_true ((hlacks _ h.link).symm.trans h.hasCase)

/-- Of two links of a chain the nearer one has the nearest case. -/
theorem owner_eq (h : t.Nearest name found) (h' : t.Nearest name found')
    (hlink : found.owner.Link found'.owner) : found.owner = found'.owner := by
  by_contra hne
  exact Bool.false_ne_true ((h'.nearer _ h.link hlink hne).symm.trans h.hasCase)

theorem unique (h : t.Nearest name found) (h' : t.Nearest name found') : found = found' := by
  have howner : found.owner = found'.owner := by
    rcases List.suffix_or_suffix_of_suffix h.link h'.link with hlink | hlink
    · exact (h'.owner_eq h hlink).symm
    · exact h.owner_eq h' hlink
  exact Option.some.inj (h.own.symm.trans (howner ▸ h'.own))

end Nearest

/-- The search for one name along a chain. -/
def nearestAlong (name : String) (layer : Layer) : List Layer → Option Resolution
  | [] => own? ⟨layer, []⟩ name
  | outer :: bases => (own? ⟨layer, outer :: bases⟩ name).or (nearestAlong name outer bases)

/-- The nearest case of a name. -/
def nearest? (t : Trait) (name : String) : Option Resolution := nearestAlong name t.layer t.bases

theorem nearest_of_along {name : String} {layer : Layer} {bases : List Layer} {found : Resolution}
    (h : nearestAlong name layer bases = some found) : Nearest ⟨layer, bases⟩ name found := by
  induction bases generalizing layer with
  | nil =>
    have howner := own?_owner h
    refine ⟨howner ▸ .refl _, howner ▸ h, fun u hlink _ hne => ?_⟩
    exact absurd ((link_iff_single.mp hlink).trans howner.symm) hne
  | cons outer bases ih =>
    rcases Option.or_eq_some_iff.mp h with h | ⟨hnone, h⟩
    · have howner := own?_owner h
      refine ⟨howner ▸ .refl _, howner ▸ h, fun u hlink hown hne => ?_⟩
      rw [howner] at hown hne
      exact absurd (hown.antisymm hlink) hne
    · have hnearest := ih h
      refine ⟨link_iff_cons.mpr (.inr hnearest.link), hnearest.own, fun u hlink hown hne => ?_⟩
      rcases link_iff_cons.mp hlink with rfl | hlink
      · exact own?_eq_none.mp hnone
      · exact hnearest.nearer u hlink hown hne

theorem lacks_of_along {name : String} {layer : Layer} {bases : List Layer}
    (h : nearestAlong name layer bases = none) : Lacks ⟨layer, bases⟩ name := by
  induction bases generalizing layer with
  | nil =>
    intro u hlink
    cases link_iff_single.mp hlink
    exact own?_eq_none.mp h
  | cons outer bases ih =>
    obtain ⟨hown, h⟩ := Option.or_eq_none_iff.mp h
    intro u hlink
    rcases link_iff_cons.mp hlink with rfl | hlink
    · exact own?_eq_none.mp hown
    · exact ih h u hlink

/-- One walk with a wildcard in hand finds what two searches find. -/
theorem resolveAlong_eq (tag : String) (pending : Option Resolution) (layer : Layer)
    (bases : List Layer) :
    resolveAlong tag pending layer bases =
      (nearestAlong tag layer bases).or (pending.or (nearestAlong wildcard layer bases)) := by
  induction bases generalizing pending layer with
  | nil => rfl
  | cons outer bases ih =>
    simp only [resolveAlong, nearestAlong]
    cases own? ⟨layer, outer :: bases⟩ tag with
    | some found => rfl
    | none => rw [Option.none_or, ih, Option.or_assoc]

theorem resolve?_eq (t : Trait) (tag : String) :
    t.resolve? tag = (t.nearest? tag).or (t.nearest? wildcard) := by
  rw [resolve?, resolveAlong_eq, Option.none_or]
  rfl

/-! ### Chains -/

/-- A chain of layers with checked case names, memo wrappers among them. -/
inductive Formed : Trait → Prop
  | candidate {id : TraitId} {name : String} {data? : Option Data} {base? : Option Trait}
    {cases : List (String × Case)} {maxDepth : Nat}
    (hcases : checkCases name data? [] (cases.map (·.1)) = .ok ())
    (hbase : ∀ base, base? = some base → Formed base) :
    Formed (Trait.candidate id name data? base? cases maxDepth)
  | memoized {t : Trait} (h : Formed t) (id : TraitId) (memo : Memo) : Formed (t.memoized id memo)

theorem uncovered_some {t : Trait} {d : Data} {variant : String}
    (h : t.uncovered? d = some variant) : variant ∈ d.variantNames ∧ t.resolves variant = false :=
  ⟨List.mem_of_find?_eq_some h, by simpa using List.find?_some h⟩

/-- Whether variants have cases is no matter of the case names. -/
theorem missingCase_ne_checked {trait trait' variant : String} {data? : Option Data}
    {seen names : List String} :
    checkCases trait data? seen names ≠ .error (.declaration (.missingCase trait' variant)) := by
  intro h
  induction names generalizing seen with
  | nil => cases h
  | cons first rest ih =>
    rw [checkCases] at h
    split at h
    · cases h
    · split at h
      · cases h
      · split at h
        · cases h
        · exact ih h

section Definition
variable {id : TraitId} {name : String} {data? : Option Data} {base? : Option Trait}
  {cases : List (String × Case)} {maxDepth : Nat}

/-- Only a variant without a case is refused as missing one. -/
theorem resolves_of_missingCase {trait variant : String}
    (h : define id name data? base? cases maxDepth =
      .error (.declaration (.missingCase trait variant))) :
    (candidate id name data? base? cases maxDepth).resolves variant = false := by
  unfold define at h
  split at h
  · next fault hchecked =>
    cases h
    exact absurd hchecked missingCase_ne_checked
  · dsimp only at h
    split at h
    · next first huncovered =>
      cases h
      obtain ⟨d, -, hfirst⟩ := Option.bind_eq_some_iff.mp huncovered
      exact (uncovered_some hfirst).2
    · cases h

/-- A variant without a case stops a definition whose case names are valid. -/
theorem define_of_uncovered {d : Data} {variant : String}
    (hchecked : checkCases name (some d) [] (cases.map (·.1)) = .ok ())
    (hvariant : variant ∈ d.variantNames)
    (h : (candidate id name (some d) base? cases maxDepth).resolves variant = false) :
    ∃ first ∈ d.variantNames, (candidate id name (some d) base? cases maxDepth).resolves first = false ∧
      define id name (some d) base? cases maxDepth =
        .error (.declaration (.missingCase name first)) := by
  cases huncovered : (candidate id name (some d) base? cases maxDepth).uncovered? d with
  | none => simpa [h] using List.find?_eq_none.mp huncovered variant hvariant
  | some first =>
    obtain ⟨hmem, hlacking⟩ := uncovered_some huncovered
    refine ⟨first, hmem, hlacking, ?_⟩
    rw [candidate] at huncovered
    simp only [define, hchecked, Option.bind_some, huncovered]

theorem formed_of_define {t : Trait} (h : define id name data? base? cases maxDepth = .ok t)
    (hbase : ∀ base, base? = some base → base.Formed) : t.Formed := by
  obtain ⟨rfl, hcases, -⟩ := define_ok h
  exact .candidate hcases hbase

end Definition

/-- No case is for what has no variant. -/
theorem Formed.lacks_empty {t : Trait} (h : t.Formed) : t.Lacks "" := by
  induction h with
  | @candidate id name data? base? cases maxDepth hcases hbase ih =>
    have hown (bases : List Layer) :
        Layer.hasCase (Trait.layer ⟨⟨id, name, data?, cases, none, maxDepth⟩, bases⟩) "" = false := by
      rw [Layer.hasCase, case?_eq_none (empty_notMem_checked hcases)]
      rfl
    cases base? with
    | none =>
      intro u hlink
      cases link_iff_single.mp hlink
      exact hown _
    | some base =>
      intro u hlink
      rcases link_iff_cons.mp hlink with rfl | hlink
      · exact hown _
      · exact ih base rfl u hlink
  | memoized _ id memo ih =>
    intro u hlink
    rcases link_iff_cons.mp hlink with rfl | hlink
    · rfl
    · exact ih u hlink

/-! ### Precedence -/

/-- The case that a call on a receiver is to run, if there is one. -/
inductive Picks (t : Trait) : Receiver → Option Resolution → Prop
  /-- A case of the variant's name, however far out. -/
  | exact {variant : String} {found : Resolution} (h : t.Nearest variant found) :
    Picks t (.tagged variant) (some found)
  | fallback {on : Receiver} {found : Resolution}
    (hexact : ∀ variant, on = .tagged variant → t.Lacks variant) (h : t.Nearest wildcard found) :
    Picks t on (some found)
  | nothing {on : Receiver} (hexact : ∀ variant, on = .tagged variant → t.Lacks variant)
    (h : t.Lacks wildcard) : Picks t on none

theorem Picks.unique {t : Trait} {on : Receiver} {found? other? : Option Resolution}
    (h : t.Picks on found?) (h' : t.Picks on other?) : found? = other? := by
  cases h with
  | exact h =>
    cases h' with
    | exact h' => rw [h.unique h']
    | fallback hexact | nothing hexact => exact absurd (hexact _ rfl) h.not_lacks
  | fallback hexact h =>
    cases h' with
    | exact h' => exact absurd (hexact _ rfl) h'.not_lacks
    | fallback _ h' => rw [h.unique h']
    | nothing _ h' => exact absurd h' h.not_lacks
  | nothing hexact h =>
    cases h' with
    | exact h' => exact absurd (hexact _ rfl) h'.not_lacks
    | fallback _ h' => exact absurd h h'.not_lacks
    | nothing => rfl

/-- Resolution picks the case that is to run. -/
theorem picks_resolve? {t : Trait} (hempty : t.Lacks "") (on : Receiver) :
    t.Picks on (t.resolve? on.caseName) := by
  rw [resolve?_eq]
  cases hexact : t.nearest? on.caseName with
  | some found =>
    cases on with
    | tagged variant => exact .exact (nearest_of_along hexact)
    -- A value that is no instance has a name that no case has.
    | untagged kind => exact absurd hempty (nearest_of_along hexact).not_lacks
  | none =>
    have hlacks : ∀ variant, on = .tagged variant → t.Lacks variant := by
      rintro variant rfl
      exact lacks_of_along hexact
    rw [Option.none_or]
    cases hwild : t.nearest? wildcard with
    | some found => exact .fallback hlacks (nearest_of_along hwild)
    | none => exact .nothing hlacks (lacks_of_along hwild)

/-! ### Calls -/

/-- What comes of the case that is picked: it runs for the trait that was called, on behalf
of the one that has it. -/
def carryOut (perform : Performer) (t : Trait) (on : Receiver) (args : List Value) :
    Option Resolution → Run Value
  | some found => found.case.run perform ⟨t, found.owner⟩ found.name args
  | none => Run.fail (.dispatch (.noCase t.name on))

theorem dispatch_picked {t : Trait} (hempty : t.Lacks "") {found? : Option Resolution}
    (perform : Performer) {receiver : Value} (args : List Value) {w : World}
    (h : t.Picks (w.receiver receiver) found?) :
    t.dispatch perform receiver args w =
      t.carryOut perform (w.receiver receiver) args found? w := by
  rw [h.unique (picks_resolve? hempty _), dispatch_eq]
  cases t.resolve? (w.receiver receiver).caseName <;> rfl

/-- A call comes to look for its case in this world: at once, or after its memo table had no
answer and took the bottom. -/
inductive Searches (perform : Performer) (t : Trait) (receiver : Value) (rest : List Value)
    (w : World) : World → Prop
  | plain (hroom : ¬t.layer.maxDepth ≤ w.nesting.current) (hplain : t.layer.memo? = none) :
    Searches perform t receiver rest w {w with nesting := w.nesting.inside}
  | miss {memo : Memo} {path : List Key} {b : Value} {w' : World}
    (hroom : ¬t.layer.maxDepth ≤ w.nesting.current) (hmemo : t.layer.memo? = some memo)
    (hpath : Key.path (receiver :: rest) = .ok path)
    (hmiss : World.stored? memo.store path {w with nesting := w.nesting.inside} = none)
    (hbottom : memo.bottom.run perform (receiver :: rest) {w with nesting := w.nesting.inside} =
      (.ok b, w')) :
    Searches perform t receiver rest w ((w'.storeSet memo.store path b).reclaimed w.nextObject)

/-- A call that comes to look for its case results in what the case does. -/
theorem Searches.result {perform : Performer} {t : Trait} {receiver : Value} {rest : List Value}
    {w w' : World} (h : t.Searches perform receiver rest w w') :
    (t.call perform (receiver :: rest) w).1 =
      (t.dispatch perform receiver (receiver :: rest) w').1 := by
  cases h with
  | plain hroom hplain =>
    simp only [call, hplain, Moment.guarded_apply, if_neg hroom]
    rfl
  | @miss memo path b w₁ hroom hmemo hpath hmiss hbottom =>
    simp only [call, hmemo, Moment.guarded_apply, if_neg hroom, Memo.call_eq, hpath, hmiss]
    rcases hdispatch : t.dispatch perform receiver (receiver :: rest)
      ((w₁.storeSet memo.store path b).reclaimed w.nextObject) with ⟨stop | v, w₂⟩
    · rw [Memo.fill_error hbottom hdispatch]
    · rw [Memo.fill_ok hbottom hdispatch]

/-! ### Who asks about a name -/

/-- Every variant of the name has a case for all who ask: the definition is not refused for it,
views of its instances have the trait as a method, and calls on them run the case. -/
structure Serves (t : Trait) (variant : String) (found : Resolution) : Prop where
  picks : t.Picks (.tagged variant) (some found)
  resolve : t.resolve? variant = some found
  resolves : t.resolves variant = true
  define : ∀ id name d base? cases maxDepth, t = candidate id name (some d) base? cases maxDepth →
    Trait.define id name (some d) base? cases maxDepth ≠
      .error (.declaration (.missingCase name variant))
  member : ∀ perform (view : View) w tag values name id, tag.name = variant →
    w.heap.instance? view.value = some (tag, values) → tag.fieldIndex? name = none →
    view.facade.trait? name = some id → w.traits[id]? = some t →
    view.member perform name w = (.ok (.method ⟨id, t.name, view.value⟩), w)
  dispatch : ∀ perform receiver args w, w.receiver receiver = .tagged variant →
    t.dispatch perform receiver args w =
      found.case.run perform ⟨t, found.owner⟩ found.name args w

/-- No variant of the name has a case, for all who ask: no definition for a declaration with it
goes through, views of its instances do not bind the trait, and calls on them fail. -/
structure Refuses (t : Trait) (variant : String) : Prop where
  picks : t.Picks (.tagged variant) none
  resolve : t.resolve? variant = none
  resolves : t.resolves variant = false
  define : ∀ id name d base? cases maxDepth, t = candidate id name (some d) base? cases maxDepth →
    checkCases name (some d) [] (cases.map (·.1)) = .ok () → variant ∈ d.variantNames →
    ∃ first ∈ d.variantNames, t.resolve? first = none ∧
      Trait.define id name (some d) base? cases maxDepth =
        .error (.declaration (.missingCase name first))
  member : ∀ perform (view : View) w tag values name id, tag.name = variant →
    w.heap.instance? view.value = some (tag, values) → tag.fieldIndex? name = none →
    view.facade.trait? name = some id → w.traits[id]? = some t →
    view.member perform name w =
      (.error (.fault (.composition (.missingCase t.name variant))), w)
  dispatch : ∀ perform receiver args w, w.receiver receiver = .tagged variant →
    t.dispatch perform receiver args w =
      (.error (.fault (.dispatch (.noCase t.name (.tagged variant)))), w)

end Trait

/-- A view that has no field of the name has what its facade binds under it. -/
theorem View.member_eq (perform : Performer) {view : View} {w : World} {tag : Tag}
    {values : List Value} {name : String} {id : TraitId} {t : Trait}
    (hinst : w.heap.instance? view.value = some (tag, values))
    (hfield : tag.fieldIndex? name = none) (hbound : view.facade.trait? name = some id)
    (ht : w.traits[id]? = some t) :
    view.member perform name w =
      if t.resolves tag.name then (.ok (.method ⟨id, t.name, view.value⟩), w)
      else (.error (.fault (.composition (.missingCase t.name tag.name))), w) := by
  simp only [member, bind, Run.bind_apply, Run.get_apply, hinst, hfield, hbound, ht]
  cases t.resolves tag.name <;> rfl

namespace Trait

section Readers
variable {t : Trait} {variant : String}

theorem serves_of_resolve? (hempty : t.Lacks "") {found : Resolution}
    (h : t.resolve? variant = some found) : t.Serves variant found := by
  have hpicks : t.Picks (.tagged variant) (some found) := h ▸ picks_resolve? hempty (.tagged variant)
  have hresolves : t.resolves variant = true := by rw [resolves_eq, h]; rfl
  refine ⟨hpicks, h, hresolves, ?_, ?_, ?_⟩
  · rintro id name d base? cases maxDepth rfl hdefine
    exact Bool.false_ne_true ((resolves_of_missingCase hdefine).symm.trans hresolves)
  · rintro perform view w tag values name id rfl hinst hfield hbound ht
    rw [View.member_eq perform hinst hfield hbound ht, if_pos hresolves]
  · intro perform receiver args w hon
    rw [dispatch_picked hempty perform args (hon ▸ hpicks)]
    rfl

theorem refuses_of_resolve? (hempty : t.Lacks "") (h : t.resolve? variant = none) :
    t.Refuses variant := by
  have hpicks : t.Picks (.tagged variant) none := h ▸ picks_resolve? hempty (.tagged variant)
  have hresolves : t.resolves variant = false := by rw [resolves_eq, h]; rfl
  refine ⟨hpicks, h, hresolves, ?_, ?_, ?_⟩
  · rintro id name d base? cases maxDepth rfl hchecked hvariant
    obtain ⟨first, hmem, hfirst, hdefine⟩ := define_of_uncovered hchecked hvariant hresolves
    rw [resolves_eq, Option.isSome_eq_false_iff, Option.isNone_iff_eq_none] at hfirst
    exact ⟨first, hmem, hfirst, hdefine⟩
  · rintro perform view w tag values name id rfl hinst hfield hbound ht
    rw [View.member_eq perform hinst hfield hbound ht, if_neg (by rw [hresolves]; decide)]
  · intro perform receiver args w hon
    rw [dispatch_picked hempty perform args (hon ▸ hpicks), hon]
    rfl

end Readers

/-- **Precedence, and all who ask agree.** A call on a receiver runs the one case that is to
run: that of the variant's name in the nearest trait of the chain with one, else the nearest
wildcard. It runs for the trait that was called, on behalf of the one that has the case; if
there is none the call fails. And for every name either all who ask find the case, or none
does. -/
theorem Formed.precedence {t : Trait} (ht : t.Formed) :
    (∀ on, ∃ found?, t.Picks on found? ∧ (∀ other?, t.Picks on other? → other? = found?) ∧
      (∀ perform receiver args w, w.receiver receiver = on →
        t.dispatch perform receiver args w = t.carryOut perform on args found? w) ∧
      ∀ perform receiver rest w w', t.Searches perform receiver rest w w' →
        w'.receiver receiver = on →
        (t.call perform (receiver :: rest) w).1 =
          (t.carryOut perform on (receiver :: rest) found? w').1) ∧
      ∀ variant, (∃ found, t.Serves variant found) ∨ t.Refuses variant := by
  have hempty := ht.lacks_empty
  refine ⟨fun on => ?_, fun variant => ?_⟩
  · have hpicks := picks_resolve? hempty on
    refine ⟨t.resolve? on.caseName, hpicks, fun other? h => h.unique hpicks, ?_, ?_⟩
    · rintro perform receiver args w rfl
      exact dispatch_picked hempty perform args hpicks
    · rintro perform receiver rest w w' hsearches rfl
      rw [hsearches.result, dispatch_picked hempty perform _ hpicks]
  · cases hfound : t.resolve? variant with
    | some found => exact .inl ⟨found, serves_of_resolve? hempty hfound⟩
    | none => exact .inr (refuses_of_resolve? hempty hfound)

end Trait

/-! ### A wildcard nearer than a case -/

/-- The trait with a case for leaves and one for everything else, through a memo table. -/
def leavesOrElseOnce : Trait := leavesOrElse.memoized 2 ⟨0, .value .null⟩

theorem leavesOrElseOnce_formed : leavesOrElseOnce.Formed := by
  have hleaves : Trait.define 0 "size" none none [("Leaf", .handler fun _ => pure (.int 1))] 512 =
      .ok leaves := rfl
  have helse : Trait.define 1 "size" none (some leaves)
      [(wildcard, .handler fun _ => pure (.int 0))] 512 = .ok leavesOrElse := rfl
  refine .memoized (Trait.formed_of_define helse fun base hbase => ?_) _ _
  cases hbase
  exact Trait.formed_of_define hleaves nofun

/-- A world with a leaf. -/
def oneLeaf : World := {heap := ⟨#[some (.content (.fields ⟨0, 0, "Leaf", [], 0⟩ []))]⟩}

/-- A world with a leaf and the memo table. -/
def oneLeafTable : World := {oneLeaf with stores := #[⟨.strong, .nil⟩]}

/-- A leaf finds the case for leaves past the wildcard, and a number the wildcard. -/
theorem leavesOrElseOnce_calls :
    leavesOrElseOnce.Formed ∧
      (leavesOrElseOnce.call (perform 1) [.inst 0] oneLeafTable).1 = .ok (.int 1) ∧
      (leavesOrElseOnce.call (perform 1) [.int 5] oneLeafTable).1 = .ok (.int 0) := by
  have hformed := leavesOrElseOnce_formed
  have hempty := hformed.lacks_empty
  have hsearches (receiver : Value) (path : List Key) (hpath : Key.path [receiver] = .ok path)
      (hmiss : oneLeafTable.stored? 0 path = none) :
      leavesOrElseOnce.Searches (perform 1) receiver [] oneLeafTable _ :=
    .miss (by decide) rfl hpath hmiss rfl
  refine ⟨hformed, ?_, ?_⟩
  · obtain ⟨found?, hpicks, hunique, -, hcall⟩ := hformed.precedence.1 (.tagged "Leaf")
    cases hunique _ (Trait.picks_resolve? hempty (.tagged "Leaf"))
    exact hcall _ _ _ _ _ (hsearches (.inst 0) _ rfl rfl) rfl
  · obtain ⟨found?, hpicks, hunique, -, hcall⟩ := hformed.precedence.1 (.untagged .int)
    cases hunique _ (Trait.picks_resolve? hempty (.untagged .int))
    exact hcall _ _ _ _ _ (hsearches (.int 5) _ rfl rfl) rfl

end OpenVariants

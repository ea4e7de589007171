import OpenVariants.Proofs.Construction
import OpenVariants.Proofs.Pure

/-! Traits that cover a declaration.

A trait defined for a declaration is checked once, by the names of its variants. The
check lasts: whatever overrides the trait later, and through any memo table, a call on
an instance of the declaration finds a case (`covers_of_link`), and a view of the
instance has the trait as a method (`Trait.Covers.member_eq`). -/
namespace OpenVariants

/-- An instance of one of the variants. -/
def Data.Contains (d : Data) (h : Heap) (v : Value) (tag : Tag) : Prop :=
  ∃ values, h.instance? v = some (tag, values) ∧ d.hasTag tag = true

namespace Trait

/-! ### Resolution -/

theorem isSome_own? (t : Trait) (name : String) : (t.own? name).isSome = t.layer.hasCase name := by
  unfold own? Layer.hasCase
  exact Option.isSome_map

/-- Walking outward ends with a case if there was one before or there is one further on. -/
theorem isSome_resolveAlong (tag : String) (pending : Option Resolution) (layer : Layer)
    (bases : List Layer) :
    (resolveAlong tag pending layer bases).isSome =
      (pending.isSome ||
        (layer :: bases).any fun l => l.hasCase tag || l.hasCase wildcard) := by
  induction bases generalizing pending layer with
  | nil =>
    simp only [resolveAlong, Option.isSome_or, isSome_own?, List.any_cons, List.any_nil,
      Bool.or_false]
    cases layer.hasCase tag <;> cases pending.isSome <;> rfl
  | cons next rest ih =>
    have hown := isSome_own? ⟨layer, next :: rest⟩ tag
    simp only [resolveAlong]
    split
    · next found hfound =>
      rw [hfound] at hown
      simp only [List.any_cons, ← hown]
      simp
    · next hnone =>
      rw [hnone] at hown
      rw [ih, Option.isSome_or, isSome_own?, List.any_cons (l := next :: rest), ← hown]
      simp [Bool.or_assoc]

/-- A trait resolves a name exactly when a call on it finds a case. -/
theorem resolves_eq (t : Trait) (name : String) : t.resolves name = (t.resolve? name).isSome := by
  rw [resolve?, isSome_resolveAlong]
  rfl

/-! ### Later links of a chain -/

/-- What a trait resolves all traits resolve that override it. -/
theorem Link.resolves {t u : Trait} (hlink : t.Link u) {name : String}
    (h : u.resolves name = true) : t.resolves name = true := by
  obtain ⟨layer, hmem, hcase⟩ := List.any_eq_true.mp h
  exact List.any_eq_true.mpr ⟨layer, hlink.subset hmem, hcase⟩

/-- The trait that a definition makes if every variant has a case. -/
def candidate (id : TraitId) (name : String) (data? : Option Data) (base? : Option Trait)
    (cases : List (String × Case)) (maxDepth : Nat) : Trait :=
  ⟨⟨id, name, data?, cases, none, maxDepth⟩, (base?.map chain).getD []⟩

/-- A definition that goes through has valid case names and leaves no variant without a case. -/
theorem define_ok {id : TraitId} {name : String} {data? : Option Data} {base? : Option Trait}
    {cases : List (String × Case)} {maxDepth : Nat} {t : Trait}
    (h : define id name data? base? cases maxDepth = .ok t) :
    t = candidate id name data? base? cases maxDepth ∧
      checkCases name data? [] (cases.map (·.1)) = .ok () ∧ data?.bind t.uncovered? = none := by
  unfold define at h
  split at h
  · cases h
  · next hchecked =>
    dsimp only at h
    split at h
    · cases h
    · next hcovered =>
      cases h
      exact ⟨rfl, hchecked, hcovered⟩

theorem define_link {id : TraitId} {name : String} {data? : Option Data} {base t : Trait}
    {cases : List (String × Case)} {maxDepth : Nat}
    (h : define id name data? (some base) cases maxDepth = .ok t) : t.Link base := by
  obtain ⟨rfl, -, -⟩ := define_ok h
  exact List.suffix_cons _ _

theorem memoized_link (t : Trait) (id : TraitId) (memo : Memo) : (t.memoized id memo).Link t :=
  List.suffix_cons _ _

/-! ### Covering a declaration -/

/-- Every variant of the declaration has a case. -/
def Covers (t : Trait) (d : Data) : Prop := ∀ name ∈ d.variantNames, t.resolves name = true

theorem covers_of_define {id : TraitId} {name : String} {d : Data} {base? : Option Trait}
    {cases : List (String × Case)} {maxDepth : Nat} {t : Trait}
    (h : define id name (some d) base? cases maxDepth = .ok t) : t.Covers d := by
  obtain ⟨-, -, hcovered⟩ := define_ok h
  intro variant hvariant
  simpa using List.find?_eq_none.mp hcovered variant hvariant

theorem covers_of_link {t u : Trait} {d : Data} (hlink : t.Link u) (h : u.Covers d) : t.Covers d :=
  fun name hname => hlink.resolves (h name hname)

/-- The tag of a variant has the variant's name. -/
theorem mem_variantNames {d : Data} {tag : Tag} (h : d.hasTag tag = true) :
    tag.name ∈ d.variantNames := by
  obtain ⟨v, hv, _⟩ := (Option.any_eq_true _ _).mp h
  have hname : v.name = tag.name := by simpa using List.find?_some hv
  exact hname ▸ List.mem_map_of_mem (List.mem_of_find?_eq_some hv)

theorem Covers.resolves {t : Trait} {d : Data} (h : t.Covers d) {tag : Tag}
    (htag : d.hasTag tag = true) : t.resolves tag.name = true :=
  h tag.name (mem_variantNames htag)

/-- A call on an instance of the declaration runs a case. -/
theorem Covers.dispatch_eq {t : Trait} {d : Data} (h : t.Covers d) {w : World} {v : Value} {tag : Tag}
    (hv : d.Contains w.heap v tag) :
    ∃ found, t.resolve? tag.name = some found ∧ ∀ perform args,
      t.dispatch perform v args w =
        found.case.run perform ⟨t, found.owner⟩ found.name args w := by
  obtain ⟨values, hinst, htag⟩ := hv
  have hsome := h.resolves htag
  rw [resolves_eq] at hsome
  obtain ⟨found, hfound⟩ := Option.isSome_iff_exists.mp hsome
  refine ⟨found, hfound, fun perform args => ?_⟩
  rw [t.dispatch_eq]
  simp only [World.receiver, hinst, Receiver.caseName, hfound]

end Trait

/-! ### Facades -/

namespace Facade

theorem prefix_bindTraits {d : Data} {bound all : List (String × TraitId)} {traits : List Trait}
    (h : bindTraits d bound traits = .ok all) : bound <+: all := by
  induction traits generalizing bound with
  | nil =>
    cases h
    exact List.prefix_rfl
  | cons t rest ih =>
    simp only [bindTraits] at h
    split at h
    · cases h
    · split at h
      · cases h
      · exact (List.prefix_append _ _).trans (ih h)

/-- A bound trait has its name for itself: neither another one nor a field has it. -/
theorem bindTraits_ok {d : Data} {bound all : List (String × TraitId)} {traits : List Trait}
    (h : bindTraits d bound traits = .ok all) {t : Trait} (ht : t ∈ traits) :
    all.find? (·.1 == t.name) = some (t.name, t.layer.id) ∧
      ∀ v ∈ d.variants, v.tag.fieldIndex? t.name = none := by
  induction traits generalizing bound with
  | nil => cases ht
  | cons u rest ih =>
    simp only [bindTraits] at h
    split at h
    · cases h
    · next hnew =>
      split at h
      · cases h
      · next hfields =>
        rcases List.mem_cons.mp ht with rfl | ht
        · refine ⟨(prefix_bindTraits h).find?_eq_some ?_, fun v hv => ?_⟩
          · have hnone : bound.find? (·.1 == t.name) = none :=
              List.find?_eq_none.mpr fun p hp hname => hnew (List.any_eq_true.mpr ⟨p, hp, hname⟩)
            rw [List.find?_append, hnone]
            simp
          · simpa using List.find?_eq_none.mp hfields v hv
        · exact ih h ht

theorem compose_ok {d : Data} {traits : List Trait} {f : Facade}
    (h : compose d traits = .ok f) {t : Trait} (ht : t ∈ traits) :
    f.data = d ∧ f.trait? t.name = some t.layer.id ∧
      ∀ v ∈ d.variants, v.tag.fieldIndex? t.name = none := by
  unfold compose at h
  cases hbind : bindTraits d [] traits with
  | error fault =>
    rw [hbind] at h
    cases h
  | ok bound =>
    rw [hbind] at h
    cases h
    obtain ⟨hfind, hfields⟩ := bindTraits_ok hbind ht
    exact ⟨rfl, by rw [trait?, hfind]; rfl, hfields⟩

theorem wrap_ok {f : Facade} {v : Value} {w : World} {view : View} (h : f.wrap v w = .ok view) :
    ∃ id tag values, v = .inst id ∧ w.heap.instance? v = some (tag, values) ∧
      f.data.hasTag tag = true ∧ view = ⟨f, id⟩ := by
  unfold wrap at h
  split at h
  · next id tag values hinst =>
    split at h
    · next htag =>
      cases h
      exact ⟨id, tag, values, rfl, hinst, htag, rfl⟩
    · cases h
  · cases h

end Facade

/-- The tag of an instance of held data is the tag of one of its variants. -/
theorem Client.Sound.exists_variant {c : Client} (hs : c.Sound) {d : Data} (hd : d ∈ c.data)
    {v : Value} {tag : Tag} (hv : d.Contains c.world.heap v tag) : ∃ x ∈ d.variants, x.tag = tag := by
  obtain ⟨values, hinst, htag⟩ := hv
  obtain ⟨id, rfl, ho⟩ := Heap.instance?_eq_some.mp hinst
  obtain ⟨r, _, hknown, _⟩ := hs.world.instances id tag values ho
  obtain ⟨x, hx, hsame⟩ := (Option.any_eq_true _ _).mp htag
  have hx := List.mem_of_find?_eq_some hx
  have heq := hs.world.serials _ ((hs.data d hd).variants x hx).known _ hknown
    (by simpa [Tag.same] using hsame)
  exact ⟨x, hx, congrArg Prod.snd heq⟩

/-- A view of an instance of the declaration has a bound trait that covers the declaration
as a method. -/
theorem Trait.Covers.member_eq {t : Trait} {d : Data} (h : t.Covers d) {c : Client}
    (hc : c.Reachable) {e : Data} {traits : List Trait} {f : Facade}
    (hcompose : Facade.compose e traits = .ok f) (he : e ∈ c.data) (ht : t ∈ traits)
    (hdefined : c.world.traits[t.layer.id]? = some t) {v : Value} {view : View}
    (hwrap : f.wrap v c.world = .ok view) {tag : Tag} (hv : d.Contains c.world.heap v tag)
    (perform : Performer) :
    view.bind tag.name t.layer.id c.world = .ok ⟨t.layer.id, t.name, v⟩ ∧
      view.member perform t.name c.world = (.ok (.method ⟨t.layer.id, t.name, v⟩), c.world) := by
  obtain ⟨hdata, htrait, hfields⟩ := Facade.compose_ok hcompose ht
  obtain ⟨id, tag', values, rfl, hinst, htag, rfl⟩ := Facade.wrap_ok hwrap
  obtain ⟨values', hinst', htag'⟩ := hv
  rw [hinst] at hinst'
  cases hinst'
  rw [hdata] at htag
  obtain ⟨x, hx, rfl⟩ := hc.sound.exists_variant he ⟨values, hinst, htag⟩
  have hbind : View.bind ⟨f, id⟩ x.tag.name t.layer.id c.world =
      .ok ⟨t.layer.id, t.name, .inst id⟩ := by
    simp only [View.bind, hdefined, h.resolves htag', if_true, View.value]
  refine ⟨hbind, ?_⟩
  simp only [View.member, Run.bind_apply, Run.get_apply, View.value, hinst, hfields x hx, htrait,
    hbind, Run.lift_apply, Run.pure_apply]

/-! ### Totality -/

/-- On every instance of a declaration a trait resolves, calls run a case, and views have
the trait as a method. -/
structure Trait.Total (t : Trait) (d : Data) : Prop where
  resolves : ∀ h v tag, d.Contains h v tag → t.resolves tag.name = true
  /-- The call of a case is all that a call on the instance does, so only that can fail. -/
  dispatch : ∀ (w : World) v tag, d.Contains w.heap v tag →
    ∃ found, t.resolve? tag.name = some found ∧ ∀ perform args,
      t.dispatch perform v args w = found.case.run perform ⟨t, found.owner⟩ found.name args w
  member : ∀ c : Client, c.Reachable → c.world.traits[t.layer.id]? = some t →
    ∀ e ∈ c.data, ∀ traits f, Facade.compose e traits = .ok f → t ∈ traits →
      ∀ v view tag, f.wrap v c.world = .ok view → d.Contains c.world.heap v tag → ∀ perform,
        view.bind tag.name t.layer.id c.world = .ok ⟨t.layer.id, t.name, v⟩ ∧
          view.member perform t.name c.world = (.ok (.method ⟨t.layer.id, t.name, v⟩), c.world)

theorem Trait.Covers.total {t : Trait} {d : Data} (h : t.Covers d) : t.Total d where
  resolves _ _ _ hv := by
    obtain ⟨_, _, htag⟩ := hv
    exact h.resolves htag
  dispatch _ _ _ hv := h.dispatch_eq hv
  member _ hc hdefined _ he _ _ hcompose ht _ _ _ hwrap hv perform :=
    h.member_eq hc hcompose he ht hdefined hwrap hv perform

/-- **Traits for a declaration are total.** Once a trait is defined for a declaration, every
trait whose chain has it, and every memoized form of such a trait, is total on it. -/
theorem Trait.total_of_define {id : TraitId} {name : String} {d : Data} {base? : Option Trait}
    {cases : List (String × Case)} {maxDepth : Nat} {t u : Trait}
    (hdefine : Trait.define id name (some d) base? cases maxDepth = .ok t) (hlink : u.Link t) :
    u.Total d ∧ ∀ memoId memo, (u.memoized memoId memo).Total d := by
  have hcovers := covers_of_link hlink (covers_of_define hdefine)
  exact ⟨hcovers.total, fun memoId memo =>
    (covers_of_link (u.memoized_link memoId memo) hcovers).total⟩

namespace Client

/-- A trait for numbers. -/
def tally : Trait :=
  ⟨⟨0, "tally", some number, [(wildcard, .handler fun _ => pure .null)], none, 512⟩, []⟩

/-- A trait without a case that overrides it. -/
def retally : Trait := ⟨⟨1, "tally", none, [], none, 512⟩, tally.chain⟩

def tallyMemo : Memo := ⟨0, .value .null⟩

/-- The program after it defined the traits and a memoized form. -/
def tallied : Client :=
  {numbers with world := {numbers.world with
    traits := #[tally, retally, retally.memoized 2 tallyMemo]
    stores := #[⟨.strong, .nil⟩] }}

/-- Zero has the memoized trait as a method. -/
theorem tally_of_zero :
    (Trait.define 0 "tally" (some number) none [(wildcard, .handler fun _ => pure .null)] 512 =
        .ok tally ∧
      retally.Link tally) ∧
    ∃ f view, Facade.compose number [retally.memoized 2 tallyMemo] = .ok f ∧
      f.wrap (.inst 0) tallied.world = .ok view ∧
      view.member performAll "tally" tallied.world =
        (.ok (.method ⟨2, "tally", .inst 0⟩), tallied.world) := by
  have hdefine : Trait.define 0 "tally" (some number) none
      [(wildcard, .handler fun _ => pure .null)] 512 = .ok tally := rfl
  have hextend : Trait.define 1 "tally" none (some tally) [] 512 = .ok retally := rfl
  have hlink : retally.Link tally := Trait.define_link hextend
  have hreachable : tallied.Reachable := numbers_reachable.tail (.other _ _ rfl rfl rfl)
  have hcontains : number.Contains tallied.world.heap (.inst 0) zero.tag := ⟨[], rfl, rfl⟩
  have hcompose : Facade.compose number [retally.memoized 2 tallyMemo] =
      .ok ⟨number, [("tally", 2)]⟩ := rfl
  have hwrap : Facade.wrap ⟨number, [("tally", 2)]⟩ (.inst 0) tallied.world =
      .ok ⟨⟨number, [("tally", 2)]⟩, 0⟩ := rfl
  obtain ⟨_, htotal⟩ := Trait.total_of_define hdefine hlink
  have hmember := (htotal 2 tallyMemo).member tallied hreachable rfl number List.mem_cons_self _ _
    hcompose List.mem_cons_self _ _ zero.tag hwrap hcontains performAll
  exact ⟨⟨hdefine, hlink⟩, _, _, hcompose, hwrap, hmember.2⟩

end Client

end OpenVariants

import Mathlib.Tactic.TFAE
import OpenVariants.Proofs.Lineage
import OpenVariants.Proofs.Living
import OpenVariants.Proofs.Provenance
import OpenVariants.Proofs.Totality

/-! What is an instance of a declaration.

A declaration looks a tag up by name and then compares serials; a tag pattern compares
serials alone; a facade wraps what its data contains. Names and ids of tags may be the
same in other registries and other declarations, but serials are given once, and the
names of a declaration's variants differ. So every test comes down to one fact, that
the value is a living instance with the tag of one of the variants
(`Holder.Sound.contains_iff`), and that is whose variant it was made through. -/
namespace OpenVariants

theorem Facade.data_of_compose {d : Data} {traits : List Trait} {f : Facade}
    (h : compose d traits = .ok f) : f.data = d := by
  unfold compose at h
  split at h
  · cases h
    rfl
  · cases h

namespace Holder

/-- An instance that a construction through a variant gave earlier, new or not. -/
def GivenThrough (k : Holder) (u : Variant) (x : Value) : Prop :=
  ∃ (k₁ : Holder) (form : Form) (w : World), k₁.Reachable ∧ k₁.Has u ∧
    (∀ a ∈ form.values, k₁.world.heap.Proper a) ∧ form.run u k₁.world = (.ok x, w) ∧
    Steps (k₁.withWorld w) k

/-- A value passes no test for membership in a declaration. -/
structure Rejected (k : Holder) (P : Performer) (d : Data) (v : Value) : Prop where
  contains : ((k.world.heap.instance? v).any fun (tag, _) => d.hasTag tag) = false
  data : unify P (.data d) v k.world = (.ok false, k.world)
  tag : ∀ u ∈ d.variants, unify P (.tag u.tag) v k.world = (.ok false, k.world)
  wrap : ∀ traits f, Facade.compose d traits = .ok f →
    f.wrap v k.world = .error (.composition (.foreignInstance (k.world.heap.written v)))

variable {k : Holder} {d : Data} {v : Value}

/-! ### One fact behind every test -/

/-- A declaration contains the living instances with the tag of one of its variants. -/
theorem Sound.contains_iff (hs : k.Sound) (hd : d ∈ k.data) (v : Value) :
    ((k.world.heap.instance? v).any fun (tag, _) => d.hasTag tag) = true ↔
      ∃ u ∈ d.variants, ∃ values, k.world.heap.instance? v = some (u.tag, values) := by
  rw [Option.any_eq_true]
  constructor
  · rintro ⟨⟨tag, values⟩, hinst, htag⟩
    obtain ⟨u, hu, rfl⟩ := hs.client.exists_variant hd ⟨values, hinst, htag⟩
    exact ⟨u, hu, values, hinst⟩
  · rintro ⟨u, hu, values, hinst⟩
    refine ⟨(u.tag, values), hinst, ?_⟩
    have hfound : d.variant? u.tag.name = some u := (hs.client.data d hd).variant?_eq hu
    exact (Option.any_eq_true _ _).mpr ⟨u, hfound, by simp [Tag.same]⟩

/-- A tag of the declaration is that of an instance when their serials are the same. -/
theorem Sound.any_same_iff (hs : k.Sound) (hd : d ∈ k.data) {u : Variant} (hu : u ∈ d.variants) :
    ((k.world.heap.instance? v).any fun (tag, _) => tag.same u.tag) = true ↔
      ∃ values, k.world.heap.instance? v = some (u.tag, values) := by
  rw [Option.any_eq_true]
  constructor
  · rintro ⟨⟨tag, values⟩, hinst, hsame⟩
    have htag := hs.client.world.tag_of_same ((hs.client.data d hd).variants u hu).known hinst hsame
    exact ⟨values, htag ▸ hinst⟩
  · rintro ⟨values, hinst⟩
    exact ⟨(u.tag, values), hinst, by simp [Tag.same]⟩

theorem unify_data_eq (k : Holder) (P : Performer) (d : Data) (v : Value) :
    unify P (.data d) v k.world =
      (.ok ((k.world.heap.instance? v).any fun (tag, _) => d.hasTag tag), k.world) := rfl

theorem unify_tag_eq (k : Holder) (P : Performer) (t : Tag) (v : Value) :
    unify P (.tag t) v k.world =
      (.ok ((k.world.heap.instance? v).any fun (tag, _) => tag.same t), k.world) := rfl

/-- An answer that leaves the world as it is, is yes just when it says so. -/
theorem answers_yes_iff {b : Bool} {w : World} :
    ((.ok b, w) : Except Stop Bool × World) = (.ok true, w) ↔ b = true :=
  ⟨fun h => Except.ok.inj (congrArg Prod.fst h), fun h => by rw [h]⟩

theorem unify_data_iff (k : Holder) (P : Performer) (d : Data) (v : Value) :
    unify P (.data d) v k.world = (.ok true, k.world) ↔
      ((k.world.heap.instance? v).any fun (tag, _) => d.hasTag tag) = true := by
  rw [unify_data_eq]
  exact answers_yes_iff

theorem Sound.unify_tag_iff (hs : k.Sound) (P : Performer) (hd : d ∈ k.data) {u : Variant}
    (hu : u ∈ d.variants) :
    unify P (.tag u.tag) v k.world = (.ok true, k.world) ↔
      ∃ values, k.world.heap.instance? v = some (u.tag, values) := by
  rw [unify_tag_eq, ← hs.any_same_iff hd hu]
  exact answers_yes_iff

/-- Variants of one declaration with one tag are one variant. -/
theorem Sound.eq_of_tag (hs : k.Sound) (hd : d ∈ k.data) {u u' : Variant} (hu : u ∈ d.variants)
    (hu' : u' ∈ d.variants) (htag : u.tag = u'.tag) : u = u' := by
  have hname : u.name = u'.name := congrArg Tag.name htag
  have hfound := (hs.client.data d hd).variant?_eq hu
  rw [hname, (hs.client.data d hd).variant?_eq hu'] at hfound
  exact (Option.some.inj hfound).symm

/-- An instance in hand has the tag of a variant of the declaration just when it was made
through a variant with that tag. -/
theorem Reachable.made_iff (hk : k.Reachable) (hv : k.world.heap.Proper v) :
    (∃ u ∈ d.variants, ∃ values, k.world.heap.instance? v = some (u.tag, values)) ↔
      ∃ u id, v = .inst id ∧ k.MadeThrough u id ∧ u.tag ∈ d.variants.map (·.tag) := by
  constructor
  · rintro ⟨u, hu, values, hinst⟩
    obtain ⟨id, rfl, ho⟩ := Heap.instance?_eq_some.mp hinst
    obtain ⟨u', hmade, htag⟩ := hk.exists_maker ho
    exact ⟨u', id, rfl, hmade, htag ▸ List.mem_map_of_mem hu⟩
  · rintro ⟨u', id, rfl, hmade, hmem⟩
    obtain ⟨u, hu, htag⟩ := List.mem_map.mp hmem
    obtain ⟨o, ho, hname⟩ := hv id rfl
    obtain ⟨tag, values, rfl⟩ := Object.eq_fields_of_reference hname
    rw [← hmade.tag ho, ← htag] at ho
    exact ⟨u, hu, values, Heap.instance?_inst.mpr ho⟩

/-- With ids of tags to spare, what a construction gave has the tag of its variant. -/
theorem GivenThrough.instance {u : Variant} (hg : k.GivenThrough u v)
    (hcount : k.client.variantCount u.registry < UInt32.size) (hv : k.world.heap.Proper v) :
    ∃ values, k.world.heap.instance? v = some (u.tag, values) := by
  obtain ⟨k₁, form, w, hk₁, hu, hin, hrun, hsteps⟩ := hg
  have hs₁ := hk₁.sound
  have hstep := hs₁.construct hu hin hrun
  have hcount₁ : (World.tagsOf k₁.client.declared u.registry).length < UInt32.size := by
    rw [← Client.tagsOf_length] at hcount
    exact Nat.lt_of_le_of_lt (tagsOf_length_le hsteps.declared_grows _) hcount
  obtain ⟨-, values, -, hinst, -⟩ :=
    hs₁.client.world.construct_inst (hs₁.has hu) hcount₁ hin hrun
  obtain ⟨id, rfl, ho⟩ := Heap.instance?_eq_some.mp hinst
  have hbefore : w.heap.Before k.world.heap := (hs₁.step hstep).stepsBefore hsteps
  exact ⟨values, Heap.instance?_inst.mpr
    (hbefore.object?_of_alive ho (Heap.holds_iff.mp hv.holds id rfl))⟩

/-- What has no tag of the declaration passes no test. -/
theorem Sound.rejected (hs : k.Sound) (P : Performer) (hd : d ∈ k.data)
    (hno : ¬ ∃ u ∈ d.variants, ∃ values, k.world.heap.instance? v = some (u.tag, values)) :
    k.Rejected P d v := by
  have hcontains : ((k.world.heap.instance? v).any fun (tag, _) => d.hasTag tag) = false := by
    rw [← Bool.not_eq_true, hs.contains_iff hd]
    exact hno
  refine ⟨hcontains, by rw [unify_data_eq, hcontains], fun u hu => ?_, fun traits f hf => ?_⟩
  · have htag : ((k.world.heap.instance? v).any fun (tag, _) => tag.same u.tag) = false := by
      rw [← Bool.not_eq_true, hs.any_same_iff hd hu]
      exact fun ⟨values, hinst⟩ => hno ⟨u, hu, values, hinst⟩
    rw [unify_tag_eq, htag]
  · have hdata := Facade.data_of_compose hf
    unfold Facade.wrap
    split
    · next id tag values hinst =>
      rw [hinst] at hcontains
      rw [hdata, if_neg (by simpa using hcontains)]
    · rfl

/-! ### All tests agree -/

/-- **Membership tests agree.** Whatever a program has declared, extended, constructed and
let go of, in however many registries, for data that it holds and a value in hand these
are one: the data contains the value; the value matches the pattern of the data; it
matches the tag of exactly one of the variants; every facade of the data takes it; it is
an instance that was made through a variant with one of the data's tags, be that the
data's own, its base's or its extension's. What was made through another variant, whatever
its name and its ids, passes none of the tests. And with ids of tags to spare the same
goes for what a construction gave, be it new or not. -/
theorem Reachable.membership_agrees (hk : k.Reachable) (hd : d ∈ k.data)
    (hv : k.world.heap.Proper v) (P : Performer) :
    List.TFAE [
      ((k.world.heap.instance? v).any fun (tag, _) => d.hasTag tag) = true,
      unify P (.data d) v k.world = (.ok true, k.world),
      ∃! u, u ∈ d.variants ∧ unify P (.tag u.tag) v k.world = (.ok true, k.world),
      ∀ traits f, Facade.compose d traits = .ok f → ∃ view, f.wrap v k.world = .ok view,
      ∃ u id, v = .inst id ∧ k.MadeThrough u id ∧ u.tag ∈ d.variants.map (·.tag)] ∧
    (∀ u id, v = .inst id → k.MadeThrough u id → u.tag ∉ d.variants.map (·.tag) →
      k.Rejected P d v) ∧
    ∀ u, k.client.variantCount u.registry < UInt32.size → k.GivenThrough u v →
      (u.tag ∈ d.variants.map (·.tag) →
        ((k.world.heap.instance? v).any fun (tag, _) => d.hasTag tag) = true) ∧
      (u.tag ∉ d.variants.map (·.tag) → k.Rejected P d v) := by
  have hs := hk.sound
  have hfact := hs.contains_iff hd v
  refine ⟨?_, fun u id hx hmade hno => hs.rejected P hd fun ⟨u', hu', values, hinst⟩ => ?_,
    fun u hcount hgiven => ?_⟩
  · tfae_have 1 ↔ 2 := (unify_data_iff k P d v).symm
    tfae_have 1 → 3 := by
      intro hcontains
      obtain ⟨u, hu, values, hinst⟩ := hfact.mp hcontains
      refine ⟨u, ⟨hu, (hs.unify_tag_iff P hd hu).mpr ⟨values, hinst⟩⟩, ?_⟩
      rintro u' ⟨hu', hmatch⟩
      obtain ⟨values', hinst'⟩ := (hs.unify_tag_iff P hd hu').mp hmatch
      rw [hinst] at hinst'
      exact hs.eq_of_tag hd hu' hu (congrArg Prod.fst (Option.some.inj hinst')).symm
    tfae_have 3 → 1 := by
      rintro ⟨u, ⟨hu, hmatch⟩, -⟩
      exact hfact.mpr ⟨u, hu, (hs.unify_tag_iff P hd hu).mp hmatch⟩
    tfae_have 1 → 4 := by
      intro hcontains traits f hf
      obtain ⟨u, hu, values, hinst⟩ := hfact.mp hcontains
      obtain ⟨id, rfl, -⟩ := Heap.instance?_eq_some.mp hinst
      cases Facade.data_of_compose hf
      exact ⟨⟨f, id⟩, (hs.client.data f.data hd).wrap_eq hu hinst⟩
    tfae_have 4 → 1 := by
      intro hwrap
      obtain ⟨view, hview⟩ := hwrap [] ⟨d, []⟩ rfl
      obtain ⟨id, tag, values, rfl, hinst, htag, -⟩ := Facade.wrap_ok hview
      exact (Option.any_eq_true _ _).mpr ⟨(tag, values), hinst, htag⟩
    tfae_have 1 ↔ 5 := hfact.trans (hk.made_iff hv)
    tfae_finish
  · cases hx
    rw [hmade.tag (Heap.instance?_inst.mp hinst)] at hno
    exact hno (List.mem_map_of_mem hu')
  · obtain ⟨values, hinst⟩ := hgiven.instance hcount hv
    constructor
    · intro hmem
      obtain ⟨u', hu', htag⟩ := List.mem_map.mp hmem
      exact hfact.mpr ⟨u', hu', values, htag ▸ hinst⟩
    · intro hno
      refine hs.rejected P hd fun ⟨u', hu', values', hinst'⟩ => hno ?_
      rw [hinst] at hinst'
      have htag : u.tag = u'.tag := congrArg Prod.fst (Option.some.inj hinst')
      exact htag ▸ List.mem_map_of_mem hu'

/-! ### Two declarations of numbers -/

/-- The program that declared and extended numbers, with numbers declared once more, in a
third registry: the same names, the same ids of tags and the same id of the data. -/
def rivals : Holder :=
  let (d, w) := World.addData 2 "Number" none [⟨"Zero", []⟩, ⟨"Next", ["of"]⟩]
    (Client.integers.world.addRegistry {}).2
  Holder.withData ⟨Client.integers, []⟩ 2 none d w

/-- The other declaration of numbers. -/
def rival : Data :=
  ⟨5, 0, "Number", [⟨⟨6, 0, "Zero", [], 0⟩, some 2, 2⟩, ⟨⟨7, 1, "Next", ["of"], 0⟩, none, 2⟩], []⟩

theorem one_rivals : Steps ⟨Client.one, []⟩ rivals := by
  have hregistry : Client.Steps Client.one
      {Client.integers with world := (Client.integers.world.addRegistry {}).2} :=
    Client.one_integers.tail (.registry Client.integers {})
  refine (Steps.of_client hregistry).tail (.client _ ?_ (by simp))
  exact .declare _ 2 "Number" none [⟨"Zero", []⟩, ⟨"Next", ["of"]⟩] _ _ (by decide) (by simp) rfl

/-- The number after zero was made through the first declaration. It passes every test of
the extension and none of the other declaration, though the tags look the same. -/
theorem next_zero_belongs :
    unify performAll (.data Client.integer) (.inst 1) rivals.world = (.ok true, rivals.world) ∧
      (∃ u id, Value.inst 1 = .inst id ∧ rivals.MadeThrough u id ∧
        u.tag ∈ Client.integer.variants.map (·.tag)) ∧
      rivals.Rejected performAll rival (.inst 1) := by
  have hnumbers : Holder.Reachable ⟨Client.numbers, []⟩ := Steps.of_client Client.numbers_reachable
  have hmakes : Makes ⟨Client.numbers, []⟩ Client.next 1 ⟨Client.one, []⟩ :=
    .construct (.positional [.inst 0]) _ (.inr ⟨_, List.mem_cons_self, .tail _ List.mem_cons_self⟩)
      Client.zero_proper rfl (by decide)
  have hrivals : rivals.Reachable := (hnumbers.tail (hmakes.step hnumbers.sound)).trans one_rivals
  have hone : rivals.world.heap.object? 1 = some (.content (.fields Client.next.tag [.inst 0])) := rfl
  obtain ⟨hall, -, -⟩ := hrivals.membership_agrees (d := Client.integer) (.tail _ List.mem_cons_self)
    (Heap.proper_inst hone) performAll
  obtain ⟨-, hforeign, -⟩ := hrivals.membership_agrees (d := rival) List.mem_cons_self
    (Heap.proper_inst hone) performAll
  refine ⟨(hall.out 0 1).mp rfl, (hall.out 0 4).mp rfl, ?_⟩
  exact hforeign Client.next 1 rfl ⟨_, _, hnumbers, hmakes, one_rivals⟩ (by decide)

end Holder

end OpenVariants

import OpenVariants.Proofs.Construction

/-! What an extension has of its base.

A declaration remembers the whole line of those it extends, the base of all last. A
new one puts itself before the line of its base and its own variants behind those of
its base, so among all that a program holds the line of the base is a suffix, and its
variants are a prefix, however long the chain is and wherever each was declared
(`Lineal`). All else follows: an extension contains what its base contains and has its
variants, hence constructs its instances (`Reachable.extension_monotone`). -/
namespace OpenVariants

namespace Data

/-- A declaration and those it extends, nearest first. -/
def lineage (d : Data) : List Ancestor := d.asAncestor :: d.ancestors

theorem extendsFrom_iff {d b : Data} :
    d.extendsFrom b = true ↔ ∃ a ∈ d.lineage, a.serial = b.serial := by
  simp [extendsFrom, lineage]

theorem extendsFrom_refl (d : Data) : d.extendsFrom d = true :=
  extendsFrom_iff.mpr ⟨d.asAncestor, List.mem_cons_self, rfl⟩

/-- What the one of shorter line extends the other extends. -/
theorem extendsFrom_of_suffix {d e b : Data} (hs : d.lineage <:+ e.lineage)
    (hb : d.extendsFrom b = true) : e.extendsFrom b = true := by
  obtain ⟨a, ha, hserial⟩ := extendsFrom_iff.mp hb
  exact extendsFrom_iff.mpr ⟨a, hs.subset ha, hserial⟩

theorem variant?_of_variant {d : Data} {name : String} {v : Variant} (hv : d.variant name = .ok v) :
    d.variant? name = some v := by
  unfold variant at hv
  split at hv
  · cases hv
    assumption
  · cases hv

theorem mem_variants {d : Data} {name : String} {v : Variant} (hv : d.variant name = .ok v) :
    v ∈ d.variants := List.mem_of_find?_eq_some (variant?_of_variant hv)

/-! ### Variants in front -/

variable {b d : Data} (hp : b.variants <+: d.variants)
include hp

/-- A variant of the base is the extension's variant of that name. -/
theorem variant_inherited {name : String} {v : Variant} (hv : b.variant name = .ok v) :
    d.variant name = .ok v := by
  have hfound : d.variant? name = some v := hp.find?_eq_some (variant?_of_variant hv)
  rw [variant, hfound]

theorem unit_inherited {name : String} {v : Variant} (hv : b.variant name = .ok v) :
    d.unit name = b.unit name := by
  rw [unit, unit, variant_inherited hp hv, hv]

theorem hasTag_inherited {tag : Tag} (ht : b.hasTag tag = true) : d.hasTag tag = true := by
  obtain ⟨v, hv, hsame⟩ := (Option.any_eq_true _ _).mp ht
  have hfound : d.variant? tag.name = some v := hp.find?_eq_some hv
  exact (Option.any_eq_true _ _).mpr ⟨v, hfound, hsame⟩

end Data

/-! ### Serials -/

namespace World

/-- Construction gives no serial out. -/
theorem serials_canonicalize (w : World) (r : RegistryId) (tag : Tag) (fields : List Value) :
    (w.canonicalize r tag fields).2.serials = w.serials := by
  obtain ⟨registries, h | h⟩ := canonicalize_frame w r tag fields
  · rw [h]
  · rw [h]
    rfl

theorem serials_addVariant (w : World) (r : RegistryId) (owner : UInt32) (spec : VariantSpec) :
    (w.addVariant r owner spec).2.serials = w.serials + 1 := by
  unfold addVariant
  dsimp only
  split
  · exact serials_canonicalize _ _ _ _
  · rfl

theorem serials_addVariants (w : World) (r : RegistryId) (owner : UInt32)
    (specs : List VariantSpec) :
    (w.addVariants r owner specs).2.serials = w.serials + specs.length := by
  induction specs generalizing w with
  | nil => rfl
  | cons spec rest ih =>
    simp only [addVariants, ih, serials_addVariant, List.length_cons]
    omega

/-- A declaration takes the next serial, and comes before the line of its base. -/
theorem declare_lineage {w w' : World} {r : RegistryId} {name : String} {base? : Option Data}
    {specs : List VariantSpec} {d : Data}
    (hrun : OpenVariants.declare r name base? specs w = (.ok d, w')) :
    d.lineage = ⟨w.serials, name⟩ :: (base?.map Data.lineage).getD [] ∧ w.serials < w'.serials := by
  obtain ⟨_, owner, _, _, hw⟩ := declare_ok hrun
  constructor
  · simp only [OpenVariants.declare, Run.bind_apply, Run.lift_apply] at hrun
    cases hcheck : checkVariants ((base?.map Data.variantNames).getD []) specs with
    | error f =>
      rw [hcheck] at hrun
      cases hrun
    | ok u =>
      rw [hcheck] at hrun
      cases hrun
      rfl
  · rw [hw, serials_addVariants]
    change w.serials < w.serials + 1 + specs.length
    omega

end World

namespace Client

/-- No step takes a serial back. -/
theorem Sound.serials_le {c c' : Client} (hs : c.Sound) (h : Step c c') :
    c.world.serials ≤ c'.world.serials := by
  cases h with
  | declare r name base? specs d w hr hb hrun => exact Nat.le_of_lt (World.declare_lineage hrun).2
  | construct d v form x w hd hv hin hrun =>
    rcases hs.constructs hd hv hin hrun with ⟨values, _, hcon⟩ | ⟨_, rfl, _⟩
    · exact hcon.serials
    · exact Nat.le_refl _
  | other w hheap hregistries hserials => exact Nat.le_of_eq hserials.symm
  | _ => exact Nat.le_refl _

/-! ### The lines of the data that a program holds -/

/-- Declarations are told apart by their serials, and of two of which one extends the
other, the other's line is a suffix and its variants are a prefix. -/
structure Lineal (c : Client) : Prop where
  given : ∀ d ∈ c.data, ∀ a ∈ d.lineage, a.serial < c.world.serials
  distinct : ∀ b ∈ c.data, ∀ d ∈ c.data, b.serial = d.serial → b = d
  inherits : ∀ b ∈ c.data, ∀ d ∈ c.data, d.extendsFrom b = true →
    b.variants <+: d.variants ∧ b.lineage <:+ d.lineage

/-- Data let go of, and serials given out, change nothing for the rest. -/
theorem Lineal.subset {c c' : Client} (hl : c.Lineal) (hd : c'.data ⊆ c.data)
    (hs : c.world.serials ≤ c'.world.serials) : c'.Lineal where
  given d hmem a ha := Nat.lt_of_lt_of_le (hl.given d (hd hmem) a ha) hs
  distinct b hb d hmem := hl.distinct b (hd hb) d (hd hmem)
  inherits b hb d hmem := hl.inherits b (hd hb) d (hd hmem)

/-- A new declaration extends what its base extends, and nothing extends it yet. -/
theorem Lineal.declare {c : Client} (hl : c.Lineal) {r : RegistryId} {name : String}
    {base? : Option Data} {specs : List VariantSpec} {d : Data} {w : World}
    (hb : ∀ b, base? = some b → b ∈ c.data)
    (hrun : OpenVariants.declare r name base? specs c.world = (.ok d, w))
    {declared : List (RegistryId × Tag)} : Lineal ⟨w, d :: c.data, declared⟩ := by
  obtain ⟨_, _, _, hvariants, _⟩ := World.declare_ok hrun
  obtain ⟨hline, hnext⟩ := World.declare_lineage hrun
  have hserial : d.serial = c.world.serials :=
    congrArg Ancestor.serial (List.cons.inj hline).1
  have hnew : ∀ b ∈ c.data, b.extendsFrom d = false := by
    intro b hmem
    rw [← Bool.not_eq_true, Data.extendsFrom_iff]
    rintro ⟨a, ha, heq⟩
    exact Nat.ne_of_lt (hl.given b hmem a ha) (heq.trans hserial)
  have hne : ∀ b ∈ c.data, b.serial ≠ d.serial := by
    intro b hmem
    rw [hserial]
    exact Nat.ne_of_lt (hl.given b hmem b.asAncestor List.mem_cons_self)
  refine ⟨fun d' hd' a ha => ?_, fun b hb' d' hd' heq => ?_, fun b hb' d' hd' he => ?_⟩
  · rcases List.mem_cons.mp hd' with rfl | hmem
    · rw [hline] at ha
      rcases List.mem_cons.mp ha with rfl | ha
      · exact hnext
      · cases base? with
        | none => cases ha
        | some base => exact Nat.lt_trans (hl.given base (hb base rfl) a ha) hnext
    · exact Nat.lt_trans (hl.given d' hmem a ha) hnext
  · rcases List.mem_cons.mp hb' with rfl | hmem
    · rcases List.mem_cons.mp hd' with rfl | hmem'
      · rfl
      · exact absurd heq.symm (hne d' hmem')
    · rcases List.mem_cons.mp hd' with rfl | hmem'
      · exact absurd heq (hne b hmem)
      · exact hl.distinct b hmem d' hmem' heq
  · rcases List.mem_cons.mp hb' with rfl | hmem
    · rcases List.mem_cons.mp hd' with rfl | hmem'
      · exact ⟨List.prefix_rfl, List.suffix_rfl⟩
      · rw [hnew d' hmem'] at he
        cases he
    · rcases List.mem_cons.mp hd' with rfl | hmem'
      · -- The new one extends an older one only through its base.
        obtain ⟨a, ha, heq⟩ := Data.extendsFrom_iff.mp he
        rw [hline] at ha ⊢
        rcases List.mem_cons.mp ha with rfl | ha
        · exact absurd (heq.symm.trans hserial.symm) (hne b hmem)
        · cases base? with
          | none => cases ha
          | some base =>
            obtain ⟨hv, hs⟩ :=
              hl.inherits b hmem base (hb base rfl) (Data.extendsFrom_iff.mpr ⟨a, ha, heq⟩)
            rw [hvariants]
            exact ⟨hv.trans (List.prefix_append _ _), hs.trans (List.suffix_cons _ _)⟩
      · exact hl.inherits b hmem d' hmem' he

theorem Sound.lineal {c c' : Client} (hs : c.Sound) (h : Step c c') (hl : c.Lineal) :
    c'.Lineal := by
  have hle := hs.serials_le h
  cases h with
  | declare r name base? specs d w hr hb hrun => exact hl.declare hb hrun
  | release heap data hd hr => exact hl.subset hd hle
  | _ => exact hl.subset (List.Subset.refl _) hle

theorem lineal_start : Lineal {} where
  given := by simp
  distinct := by simp
  inherits := by simp

end Client

namespace Holder

/-- No step takes a serial back. -/
theorem Sound.serials_le {k k' : Holder} (hs : k.Sound) (h : Step k k') :
    k.world.serials ≤ k'.world.serials := by
  cases h with
  | client c h hheld => exact hs.client.serials_le h
  | construct v form x w hv hin hrun =>
    rcases hs.constructs (.inl hv) hin hrun with ⟨_, _, hcon⟩ | ⟨_, rfl, _⟩
    · exact hcon.serials
    · exact Nat.le_refl _
  | clone | letGo => exact Nat.le_refl _

theorem Reachable.lineal {k : Holder} (hk : k.Reachable) : k.client.Lineal := by
  induction hk with
  | refl => exact Client.lineal_start
  | tail hsteps hstep ih =>
    have hs := Reachable.sound hsteps
    have hle := hs.serials_le hstep
    cases hstep with
    | client c h hheld => exact hs.client.lineal h ih
    | construct => exact ih.subset (List.Subset.refl _) hle
    | clone | letGo => exact ih

end Holder

/-! ### What was constructed earlier -/

namespace Holder

/-- What a program constructed earlier through one declaration, by the name of a
variant, the other gives by that name for the same arguments, as long as it lives, and
nothing changes by that. -/
def GivesAgain (k : Holder) (p q : Data) (name : String) : Prop :=
  ∀ (u v : Variant), p.variant name = .ok u → q.variant name = .ok v →
    ∀ (k₁ : Holder) (form form' : Form) (x : Value) (w : World) (args args' : List Value),
      k₁.Reachable → k₁.Has u → (∀ a ∈ form.values, k₁.world.heap.Proper a) → form ≠ .unit →
      form.run u k₁.world = (.ok x, w) → form.fields k₁.world.heap u = .ok args →
      Steps (k₁.withWorld w) k → k.world.heap.holds x = true →
      (∀ a ∈ form'.values, k.world.heap.Proper a) → form' ≠ .unit →
      form'.fields k.world.heap v = .ok args' → Value.AllSame args args' →
      form'.run v k.world = (.ok x, k.world)

/-- Declarations with one variant under a name give its instances again. -/
theorem givesAgain_of_one {k : Holder} {p q : Data} {name : String} {v : Variant}
    (hpv : p.variant name = .ok v) (hqv : q.variant name = .ok v) :
    k.GivesAgain p q name := by
  intro u u' hu hu' k₁ form form' x w args args' hk₁ hhas hin hform hrun hargs hsteps hx hin'
    hform' hargs' hsame
  cases hpv.symm.trans hu
  cases hqv.symm.trans hu'
  have hs₁ := hk₁.sound
  have hstep : Step k₁ (k₁.withWorld w) := hs₁.construct hhas hin hrun
  have hs := (hs₁.step hstep).steps hsteps
  have hbefore : w.heap.Before k.world.heap := (hs₁.step hstep).stepsBefore hsteps
  -- What was constructed is under the path of the first arguments, and still is.
  obtain ⟨values₁, hf, hcon⟩ := (hs₁.constructs hhas hin hrun).resolve_right fun h => hform h.1
  rw [hargs] at hf
  cases hf
  obtain ⟨tag, values, hinst, ht, hpath⟩ := hcon.inst
  have hinst' : k.world.heap.instance? x = some (tag, values) := by
    obtain ⟨id, rfl, ho⟩ := Heap.instance?_eq_some.mp hinst
    exact Heap.instance?_inst.mpr (hbefore.object?_of_alive ho (Heap.holds_iff.mp hx id rfl))
  -- The second arguments have the path of the first.
  have hkeys : args.map Key.ofValue = args'.map Key.ofValue := by
    refine (Heap.allSame_iff_of_named fun a ha a' ha' id hid hid' => ?_).mp hsame
    have hknown : k.world.heap.Known a :=
      ((fields_proper hs₁.client.world.heap hin hargs a ha).extends hcon.extends_).known.later hbefore
    exact hknown.eq_of_object? (fields_proper hs.client.world.heap hin' hargs' a' ha') hid hid'
  have heq : k.world.canonicalize v.registry v.tag args' = (x, k.world) := by
    refine hs.client.world.canonicalize_eq_of_living hinst' (hsteps.declared_grows.subset ht) ?_
    rw [hpath, World.canonicalPath, World.canonicalPath, hkeys]
  rw [Form.run_eq v form' k.world hform', hargs', Variant.constructOn, heq]

/-- **Extension is monotone.** Of two declarations that a program holds of which one
extends the other, however many lie between them and whatever registries they were
declared in, the extension begins with the variants of its base and contains what its
base contains. By a name that its base knows it has the same variant and the same
singleton, and what was constructed through either of them, or through a clone, either of
them gives again for the same arguments, as long as it lives. A declaration extends
itself, an extension of an extension extends the base, and two that extend each other are
one. -/
theorem Reachable.extension_monotone {k : Holder} (hk : k.Reachable) :
    (∀ b ∈ k.data, ∀ d ∈ k.data, d.extendsFrom b = true →
      b.variants <+: d.variants ∧
      (∀ v, ((k.world.heap.instance? v).any fun (tag, _) => b.hasTag tag) = true →
        ((k.world.heap.instance? v).any fun (tag, _) => d.hasTag tag) = true) ∧
      ∀ name v, b.variant name = .ok v →
        d.variant name = .ok v ∧ d.unit name = b.unit name ∧
        ∀ p ∈ [b, d], ∀ q ∈ [b, d], k.GivesAgain p q name) ∧
    (∀ d ∈ k.data, d.extendsFrom d = true) ∧
    (∀ b ∈ k.data, ∀ d ∈ k.data, ∀ e ∈ k.data, d.extendsFrom b = true → e.extendsFrom d = true →
      e.extendsFrom b = true) ∧
    ∀ b ∈ k.data, ∀ d ∈ k.data, d.extendsFrom b = true → b.extendsFrom d = true → b = d := by
  have hl := hk.lineal
  refine ⟨fun b hb d hd he => ?_, fun d _ => d.extendsFrom_refl,
    fun b _ d hd e he hdb hed => ?_, fun b hb d hd hdb hbd => ?_⟩
  · obtain ⟨hfront, _⟩ := hl.inherits b hb d hd he
    refine ⟨hfront, fun v hv => ?_, fun name v hv => ?_⟩
    · obtain ⟨p, hp, htag⟩ := (Option.any_eq_true _ _).mp hv
      exact (Option.any_eq_true _ _).mpr ⟨p, hp, Data.hasTag_inherited hfront htag⟩
    · have hvd := Data.variant_inherited hfront hv
      refine ⟨hvd, Data.unit_inherited hfront hv, fun p hp q hq => ?_⟩
      -- Whichever of the two is asked by the name, its variant is the one of the base.
      have hone : ∀ p ∈ [b, d], p.variant name = .ok v := by
        intro p hp
        rcases List.mem_pair.mp hp with rfl | rfl
        · exact hv
        · exact hvd
      exact givesAgain_of_one (hone p hp) (hone q hq)
  · exact Data.extendsFrom_of_suffix (hl.inherits d hd e he hed).2 hdb
  · have hbs := (hl.inherits b hb d hd hdb).2
    have hds := (hl.inherits d hd b hb hbd).2
    have hline : b.lineage = d.lineage := hbs.eq_of_length_le hds.length_le
    exact hl.distinct b hb d hd (congrArg Ancestor.serial (List.cons.inj hline).1)

end Holder

/-! ### Numbers extended in another registry -/

namespace Client

/-- The numbers and those below zero, declared in the second registry. -/
def integer : Data :=
  ⟨3, 0, "Integer", [zero, next, ⟨⟨4, 0, "Back", ["of"], 0⟩, none, 1⟩], [⟨0, "Number"⟩]⟩

/-- The program with one number after zero, and the extension declared. -/
def integers : Client :=
  let w := (World.addData 1 "Integer" (some number) [⟨"Back", ["of"]⟩] (one.world.addRegistry {}).2).2
  ⟨w, [integer, number], one.declared ++ [(1, ⟨4, 0, "Back", ["of"], 0⟩)]⟩

theorem one_integers : Steps one integers := by
  have hregistry : Steps one {one with world := (one.world.addRegistry {}).2} :=
    .single (.registry one {})
  refine hregistry.tail ?_
  exact .declare _ 1 "Integer" (some number) [⟨"Back", ["of"]⟩] _ _ (by decide)
    (fun b hb => Option.some.inj hb ▸ List.mem_cons_self) rfl

end Client

namespace Holder

/-- The number after zero, constructed before the extension was declared, is what the
extension's variant gives. -/
theorem integers_next_again :
    Client.number.variants <+: Client.integer.variants ∧
      Client.integer.unit "Zero" = Client.number.unit "Zero" ∧
      (Form.keyed [("of", .inst 0)]).run Client.next Client.integers.world =
        (.ok (.inst 1), Client.integers.world) := by
  have hnumbers : Reachable ⟨Client.numbers, []⟩ := Steps.of_client Client.numbers_reachable
  have hsteps : Steps ⟨Client.one, []⟩ ⟨Client.integers, []⟩ := Steps.of_client Client.one_integers
  have hk : Reachable ⟨Client.integers, []⟩ :=
    (hnumbers.trans (Steps.of_client (.single Client.numbers_one))).trans hsteps
  obtain ⟨hextends, _⟩ := hk.extension_monotone
  obtain ⟨hfront, _, hvariant⟩ :=
    hextends Client.number (.tail _ List.mem_cons_self) Client.integer List.mem_cons_self rfl
  refine ⟨hfront, (hvariant "Zero" Client.zero rfl).2.1, ?_⟩
  have hzero : Client.integers.world.heap.object? 0 =
      some (.content (.fields Client.zero.tag [])) := rfl
  have hnext : Has ⟨Client.numbers, []⟩ Client.next :=
    .inr ⟨Client.number, List.mem_cons_self, .tail _ List.mem_cons_self⟩
  exact (hvariant "Next" Client.next rfl).2.2 Client.number List.mem_cons_self Client.integer
    (.tail _ List.mem_cons_self) Client.next Client.next rfl rfl ⟨Client.numbers, []⟩
    (.positional [.inst 0]) (.keyed [("of", .inst 0)]) (.inst 1) _ [.inst 0] [.inst 0] hnumbers hnext
    Client.zero_proper (by simp) rfl rfl hsteps rfl (Heap.proper_inst_alone hzero) (by simp) rfl
    (.cons rfl .nil)

end Holder

end OpenVariants

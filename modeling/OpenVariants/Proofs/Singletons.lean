import OpenVariants.Proofs.Lineage
import OpenVariants.Proofs.Provenance

/-! Singletons stay.

The instance of a variant without fields is held strongly by the variant and weakly by
the canonical store of its registry. The declaration puts it under the path of the
variant's tag (`Variant.Seated`), and as long as it lives no construction finds another
one there. It lives as long as the declaration, an extension or a clone of the variant
is held, since whatever extends the declaration has the variant, also when the
declaration itself is gone (`Holder.Heirs`). -/
namespace OpenVariants

/-- The singleton of a variant is the living instance under the path of the variant. -/
def Variant.Seated (declared : List (RegistryId × Tag)) (h : Heap) (v : Variant) : Prop :=
  ∀ id, v.singleton? = some id → ∃ tag values, h.instance? (.inst id) = some (tag, values) ∧
    (v.registry, tag) ∈ declared ∧ World.canonicalPath tag values = World.canonicalPath v.tag []

/-- A singleton stays seated as long as it lives. -/
theorem Variant.Seated.later {declared declared' : List (RegistryId × Tag)} {h h' : Heap}
    {v : Variant} (hv : v.Seated declared h) (hd : declared <+: declared') (hb : h.Before h')
    (hl : ∀ id, v.singleton? = some id → h'.alive id = true) : v.Seated declared' h' := by
  intro id hid
  obtain ⟨tag, values, hinst, ht, hpath⟩ := hv id hid
  have ho := hb.object?_of_alive (Heap.instance?_inst.mp hinst) (hl id hid)
  exact ⟨tag, values, Heap.instance?_inst.mpr ho, hd.subset ht, hpath⟩

namespace World

variable {declared : List (RegistryId × Tag)} {w : World}

theorem Canonical.addVariant_seated (hc : w.Canonical declared) {r : RegistryId}
    (hr : r < w.registries.size) (owner : UInt32) (spec : VariantSpec) :
    (w.addVariant r owner spec).1.Seated (declared ++ [(r, (w.addVariant r owner spec).1.tag)])
      (w.addVariant r owner spec).2.heap := by
  obtain ⟨reg, hreg⟩ : ∃ reg, w.registries[r]? = some reg := ⟨_, Array.getElem?_eq_getElem hr⟩
  obtain ⟨tag, hserial, hid, -, heq⟩ := addVariant_eq hreg owner spec
  have htag : (w.withTag r).Canonical (declared ++ [(r, tag)]) := hc.withTag hreg hserial hid
  rw [heq]
  split
  · have hmem : (r, tag) ∈ declared ++ [(r, tag)] := by simp
    have hempty : ∀ v ∈ ([] : List Value), (w.withTag r).heap.Proper v := by simp
    obtain ⟨tag', values, hinst, ht', hpath⟩ := (htag.canonicalize hmem hempty).inst
    obtain ⟨i, hx, -⟩ := Heap.instance?_eq_some.mp hinst
    intro id hsingle
    simp only [hx, Value.object?, Option.some.injEq] at hsingle
    cases hsingle
    exact ⟨tag', values, hx ▸ hinst, ht', hpath⟩
  · intro id hsingle
    cases hsingle

theorem Canonical.addVariants_seated (hc : w.Canonical declared) {r : RegistryId}
    (hr : r < w.registries.size) (owner : UInt32) (specs : List VariantSpec) :
    ∀ v ∈ (w.addVariants r owner specs).1,
      v.Seated (declared ++ (w.addVariants r owner specs).1.map fun v => (r, v.tag))
        (w.addVariants r owner specs).2.heap := by
  induction specs generalizing declared w with
  | nil => intro v hv; cases hv
  | cons spec rest ih =>
    obtain ⟨hfirst, -⟩ := hc.addVariant hr owner spec
    obtain ⟨hrest, -⟩ := hfirst.canonical.addVariants (hfirst.size ▸ hr) owner rest
    have hlater := ih hfirst.canonical (hfirst.size ▸ hr)
    have hseated := hc.addVariant_seated hr owner spec
    simp only [World.addVariants]
    obtain ⟨u, w₁, hadd⟩ : ∃ u w₁, w.addVariant r owner spec = (u, w₁) := ⟨_, _, rfl⟩
    rw [hadd] at hfirst hrest hlater hseated ⊢
    have hall : declared ++ (u :: (w₁.addVariants r owner rest).1).map (fun v => (r, v.tag)) =
        declared ++ [(r, u.tag)] ++ (w₁.addVariants r owner rest).1.map fun v => (r, v.tag) := by
      simp
    intro v hv
    rw [hall]
    rcases List.mem_cons.mp hv with rfl | hv
    · refine hseated.later (List.prefix_append _ _) hrest.before fun id hid => ?_
      have hp := ((hfirst.variants v List.mem_cons_self).inst id hid).1
      exact Heap.holds_iff.mp (hp.extends hrest.extends_).holds id rfl
    · exact hlater v hv

end World

namespace Holder

variable {k k' : Holder} {r : RegistryId} {name : String} {base? : Option Data}
  {specs : List VariantSpec} {d : Data} {w : World}

/-! ### What a declaration leaves -/

theorem Sound.declare_seated (hs : k.Sound) (hr : r < k.world.registries.size)
    (hrun : OpenVariants.declare r name base? specs k.world = (.ok d, w)) {v : Variant}
    (hv : v ∈ d.own base?) :
    v.Seated (k.withData r base? d w).client.declared w.heap := by
  obtain ⟨-, owner, hown, -, rfl⟩ := World.declare_ok hrun
  have hswept := World.withData_swept k.world r
  have hseated := (hs.client.world.swept hswept).addVariants_seated (hswept.size ▸ hr) owner specs
  rw [← hown] at hseated
  exact hseated v hv

/-- With ids of tags to spare, a declaration made the singletons of its variants. -/
theorem Sound.declare_makes (hs : k.Sound) (hr : r < k.world.registries.size)
    (hb : ∀ b, base? = some b → b ∈ k.data)
    (hrun : OpenVariants.declare r name base? specs k.world = (.ok d, w))
    (hcount : (k.withData r base? d w).client.variantCount r < UInt32.size) {v : Variant}
    (hv : v ∈ d.own base?) {id : ObjectId} (hid : v.singleton? = some id) :
    Makes k v id (k.withData r base? d w) := by
  obtain ⟨-, owner, hown, -, hw⟩ := World.declare_ok hrun
  have hswept := World.withData_swept k.world r
  rw [← Client.tagsOf_length, withData, hown] at hcount
  obtain ⟨hnew, hmaker⟩ := (hs.client.world.swept hswept).addVariants_maker (hswept.size ▸ hr) owner
    specs hcount (hown ▸ hv) hid
  exact .declare r name base? specs d w hr hb hrun (hown ▸ hmaker) hnew

/-! ### Extensions of what may be gone -/

/-- What extends a declaration has its variants, whether or not the declaration is still
held. -/
structure Heirs (k : Holder) (d : Data) : Prop where
  given : d.serial < k.world.serials
  inherits : ∀ e ∈ k.data, e.extendsFrom d = true → d.variants <+: e.variants

/-- A new declaration has no heirs but itself. -/
theorem Reachable.heirs (hk : k.Reachable)
    (hrun : OpenVariants.declare r name base? specs k.world = (.ok d, w)) :
    (k.withData r base? d w).Heirs d := by
  obtain ⟨hline, hnext⟩ := World.declare_lineage hrun
  have hserial : d.serial = k.world.serials := congrArg Ancestor.serial (List.cons.inj hline).1
  refine ⟨hserial ▸ hnext, fun e he hext => ?_⟩
  rcases List.mem_cons.mp he with rfl | he
  · exact List.prefix_rfl
  · obtain ⟨a, ha, heq⟩ := Data.extendsFrom_iff.mp hext
    exact absurd (heq.trans hserial) (Nat.ne_of_lt (hk.lineal.given e he a ha))

theorem Heirs.step (hh : k.Heirs d) (hs : k.Sound) (h : Step k k') : k'.Heirs d := by
  have hle := hs.serials_le h
  refine ⟨Nat.lt_of_lt_of_le hh.given hle, fun e he hext => ?_⟩
  cases h with
  | client c h hheld =>
    cases h with
    | declare r name base? specs d' w hr hb hrun =>
      rcases List.mem_cons.mp he with rfl | he
      · -- The new one has a serial of its own, so it extends through its base.
        obtain ⟨hline, -⟩ := World.declare_lineage hrun
        obtain ⟨-, -, -, hvariants, -⟩ := World.declare_ok hrun
        obtain ⟨a, ha, heq⟩ := Data.extendsFrom_iff.mp hext
        rw [hline] at ha
        rcases List.mem_cons.mp ha with rfl | ha
        · exact absurd heq.symm (Nat.ne_of_lt hh.given)
        · cases base? with
          | none => cases ha
          | some base =>
            have hbase := hh.inherits base (hb base rfl) (Data.extendsFrom_iff.mpr ⟨a, ha, heq⟩)
            rw [hvariants]
            exact hbase.trans (List.prefix_append _ _)
      · exact hh.inherits e he hext
    | release heap data hd hr => exact hh.inherits e (hd he) hext
    | _ => exact hh.inherits e he hext
  | _ => exact hh.inherits e he hext

theorem Heirs.steps (hh : k.Heirs d) (hs : k.Sound) (h : Steps k k') : k'.Heirs d := by
  induction h with
  | refl => exact hh
  | tail hsteps hstep ih => exact ih.step (hs.steps hsteps) hstep

/-! ### Singletons -/

/-- Every way to a variant without fields of a declaration gives one living instance and
changes nothing: the variant's own, all forms of construction, and the names that
extensions of the declaration and their facades know it by. -/
structure Stands (k : Holder) (d : Data) (v : Variant) (id : ObjectId) : Prop where
  alive : k.world.heap.alive id = true
  singleton : v.singleton = .ok (.inst id)
  constructed : ∀ form ∈ [Form.positional [], .keyed [], .applied [], .unit],
    form.run v k.world = (.ok (.inst id), k.world)
  named : ∀ e ∈ k.data, e.extendsFrom d = true → e.variant v.name = .ok v ∧
    e.unit v.name = .ok (.inst id) ∧ ∀ f : Facade, f.data = e → f.unit v.name = .ok ⟨f, id⟩

/-- Without fields, nothing is what every form of construction comes down to. -/
theorem fields_of_no_fields {v : Variant} (hnone : v.tag.fields = []) {id : ObjectId}
    (hid : v.singleton? = some id) (h : Heap) {form : Form}
    (hform : form ∈ [Form.positional [], .keyed [], .applied [], .unit]) :
    form.fields h v = .ok [] := by
  simp only [List.mem_cons, List.not_mem_nil, or_false] at hform
  rcases hform with rfl | rfl | rfl | rfl
  · simp [Form.fields, Variant.positional, Tag.arity, hnone]
  · simp [Form.fields, Variant.keyed, Variant.gather, hnone]
  · simp [Form.fields, Variant.positional, Tag.arity, hnone]
  · simp [Form.fields, Variant.singleton, hid, Except.map]

/-- A seated singleton is what every form of construction gives. -/
theorem Sound.run_seated (hs : k.Sound) {v : Variant} (hnone : v.tag.fields = []) {id : ObjectId}
    (hid : v.singleton? = some id) (hseated : v.Seated k.client.declared k.world.heap) {form : Form}
    (hform : form ∈ [Form.positional [], .keyed [], .applied [], .unit]) :
    form.run v k.world = (.ok (.inst id), k.world) := by
  have hfields := fields_of_no_fields hnone hid k.world.heap hform
  by_cases hunit : form = .unit
  · subst hunit
    simp [Form.run, Variant.singleton, hid]
  · obtain ⟨tag, values, hinst, ht, hpath⟩ := hseated id hid
    rw [Form.run_eq v form k.world hunit, hfields, Variant.constructOn,
      hs.client.world.canonicalize_eq_of_living hinst ht hpath]

/-- **Singletons stay.** A declaration gives each of its variants without fields an
instance, which it makes itself as long as there are ids of tags to spare, whatever
sweeps that sets off. In all that the program comes to later, however it drops, purges
and sweeps, as long as it holds the declaration, an extension of it or a clone of the
variant, that instance lives and is the one that every way to the variant gives. -/
theorem Reachable.singletons_stand (hk : k.Reachable) (hr : r < k.world.registries.size)
    (hb : ∀ b, base? = some b → b ∈ k.data)
    (hrun : OpenVariants.declare r name base? specs k.world = (.ok d, w)) {v : Variant}
    (hv : v ∈ d.own base?) (hnone : v.tag.fields = []) :
    ∃ id, v.singleton? = some id ∧
      ((k.withData r base? d w).client.variantCount r < UInt32.size →
        Makes k v id (k.withData r base? d w)) ∧
      ∀ k', Steps (k.withData r base? d w) k' →
        (v ∈ k'.variants ∨ ∃ e ∈ k'.data, e.extendsFrom d = true) → k'.Stands d v id := by
  have hs := hk.sound
  have hstep := hs.declare hr hb hrun
  have hs₁ := hs.step hstep
  have hvd : v ∈ d.variants := by
    obtain ⟨-, -, -, hvariants, -⟩ := World.declare_ok hrun
    exact hvariants ▸ List.mem_append_right _ hv
  have hgood := hs₁.has (.inr ⟨d, List.mem_cons_self, hvd⟩)
  obtain ⟨id, hid⟩ : ∃ id, v.singleton? = some id := by
    rw [← Option.isSome_iff_exists, hgood.singleton]
    simp [Tag.isSingleton, hnone]
  refine ⟨id, hid, fun hcount => hs.declare_makes hr hb hrun hcount hv hid, fun k' hsteps hheld => ?_⟩
  have hs' := hs₁.steps hsteps
  have hheirs := (hk.heirs hrun).steps hs₁ hsteps
  -- Whatever is held has the variant, and so the singleton is alive.
  have hhas : k'.Has v := by
    refine hheld.imp_right ?_
    rintro ⟨e, he, hext⟩
    exact ⟨e, he, (hheirs.inherits e he hext).subset hvd⟩
  have halive : k'.world.heap.alive id = true :=
    Heap.holds_iff.mp ((hs'.has hhas).inst id hid).1.holds id rfl
  have hseated : v.Seated k'.client.declared k'.world.heap := by
    refine (hs.declare_seated hr hrun hv).later hsteps.declared_grows (hs₁.stepsBefore hsteps) ?_
    intro i hi
    cases hid.symm.trans hi
    exact halive
  refine ⟨halive, by simp [Variant.singleton, hid],
    fun form hform => hs'.run_seated hnone hid hseated hform, fun e he hext => ?_⟩
  have hvariant : e.variant v.name = .ok v := by
    have hfound := (hs'.client.data e he).variant?_eq ((hheirs.inherits e he hext).subset hvd)
    rw [Data.variant, hfound]
  have hunit : e.unit v.name = .ok (.inst id) := by
    rw [Data.unit, hvariant]
    simp [Variant.singleton, hid, bind, Except.bind]
  refine ⟨hvariant, hunit, fun f hf => ?_⟩
  rw [Facade.unit, hf, hunit]

/-! ### Switches -/

/-- A program with a registry that sweeps after every construction. -/
def swept : Holder := ⟨{world := (World.addRegistry {purgeInterval := 1} {}).2}, []⟩

def off : Variant := ⟨⟨1, 0, "Off", [], 0⟩, some 0, 0⟩

def switch : Data := ⟨0, 0, "Switch", [off, ⟨⟨2, 1, "On", [], 0⟩, some 1, 0⟩], []⟩

/-- The program after it declared switches, which set off two sweeps. -/
def switches : Holder :=
  swept.withData 0 none switch
    (World.addData 0 "Switch" none [⟨"Off", []⟩, ⟨"On", []⟩] swept.world).2

/-- Switches with something in between. -/
def dimmer : Data :=
  ⟨3, 1, "Dimmer", switch.variants ++ [⟨⟨4, 2, "Dimmed", ["to"], 1⟩, none, 0⟩], [⟨0, "Switch"⟩]⟩

/-- The program after it extended the switches. -/
def dimmers : Holder :=
  switches.withData 0 (some switch) dimmer
    (World.addData 0 "Dimmer" (some switch) [⟨"Dimmed", ["to"]⟩] switches.world).2

/-- The program after it took a clone of the first variant, and of its data kept the
extension alone. -/
def dimmed : Holder := Holder.keeping {dimmers with variants := [off]} [dimmer]

/-- The program after it let go of all data and swept: the clone is all that is left. -/
def offLeft : Holder :=
  (dimmed.keeping []).withWorld ((dimmed.keeping []).world.sweep 0)

theorem switches_dimmed (hs : switches.Sound) : Steps switches dimmed := by
  have hrun : OpenVariants.declare 0 "Dimmer" (some switch) [⟨"Dimmed", ["to"]⟩] switches.world =
      (.ok dimmer,
        (World.addData 0 "Dimmer" (some switch) [⟨"Dimmed", ["to"]⟩] switches.world).2) := rfl
  have hextend : Step switches dimmers :=
    hs.declare (by decide) (fun b hb => Option.some.inj hb ▸ List.mem_cons_self) hrun
  have hclone : Step dimmers {dimmers with variants := [off]} :=
    .clone dimmer off List.mem_cons_self List.mem_cons_self
  refine ((Relation.ReflTransGen.single hextend).tail hclone).tail ?_
  exact ((hs.step hextend).step hclone).keeping (by simp [Holder.data, dimmers, withData])

theorem dimmed_offLeft (hs : dimmed.Sound) : Steps dimmed offLeft := by
  have hdrop : Step dimmed (dimmed.keeping []) := hs.keeping (List.nil_subset _)
  exact (Relation.ReflTransGen.single hdrop).tail ((hs.step hdrop).sweep 0)

/-- The instance that the declaration of switches made is what the extension gives when
the switches are gone, and what the clone gives when all data is. -/
theorem off_stands : Makes swept off 0 switches ∧ dimmed.Stands switch off 0 ∧
    offLeft.Stands switch off 0 := by
  have hswept : swept.Reachable := .single (.client _ (.registry {} {purgeInterval := 1}) (by simp))
  have hdeclare : OpenVariants.declare 0 "Switch" none [⟨"Off", []⟩, ⟨"On", []⟩] swept.world =
      (.ok switch, switches.world) := rfl
  have hs : switches.Sound := hswept.sound.step (hswept.sound.declare (by decide) (by simp) hdeclare)
  have hdimmed := switches_dimmed hs
  obtain ⟨id, hid, hmakes, hstands⟩ := hswept.singletons_stand (by decide) (by simp) hdeclare
    (v := off) List.mem_cons_self rfl
  cases hid
  refine ⟨hmakes (by decide), hstands dimmed hdimmed (.inl List.mem_cons_self), ?_⟩
  exact hstands offLeft (hdimmed.trans (dimmed_offLeft (hs.steps hdimmed))) (.inl List.mem_cons_self)

end Holder

end OpenVariants

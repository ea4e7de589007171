import OpenVariants.Proofs.Holder

/-! Fields and their names.

The check of a declaration refuses a variant that names a field twice, and whatever the
form of a construction, it comes down to one value for each field. So in whatever a
program comes to, the names of a declared tag differ and a living instance has as many
values as its tag has names (`Client.Fielded`): a field is the same field whether it is
read by its name or by its place. -/
namespace OpenVariants

/-! ### Names of a declaration -/

/-- Good fields differ from one another, and from those in `seen`. -/
theorem checkFields_ok {variant : String} {seen fields : List String}
    (h : checkFields variant seen fields = .ok ()) : fields.Nodup ∧ ∀ f ∈ fields, f ∉ seen := by
  induction fields generalizing seen with
  | nil => simp
  | cons field rest ih =>
    rw [checkFields] at h
    split at h
    · cases h
    · split at h
      · cases h
      · next hseen =>
        obtain ⟨hnodup, hnew⟩ := ih h
        refine ⟨List.nodup_cons.mpr ⟨fun hmem => hnew field hmem List.mem_cons_self, hnodup⟩, ?_⟩
        intro f hf
        rcases List.mem_cons.mp hf with rfl | hf
        · simpa using hseen
        · exact fun hmem => hnew f hf (List.mem_cons_of_mem _ hmem)

/-- No variant of a good specification names a field twice. -/
theorem checkVariants_fields {seen : List String} {specs : List VariantSpec}
    (h : checkVariants seen specs = .ok ()) : ∀ spec ∈ specs, spec.fields.Nodup := by
  induction specs generalizing seen with
  | nil => simp
  | cons spec rest ih =>
    obtain ⟨-, hfields, hrest⟩ := checkVariants_cons h
    intro spec' hs
    rcases List.mem_cons.mp hs with rfl | hs
    · exact (checkFields_ok hfields).1
    · exact ih hrest spec' hs

/-- A variant has the fields that were asked for. -/
theorem World.addVariant_fields (r : RegistryId) (owner : UInt32) (spec : VariantSpec) (w : World) :
    (w.addVariant r owner spec).1.tag.fields = spec.fields := by
  unfold World.addVariant
  dsimp only
  split <;> rfl

theorem World.addVariants_fields (r : RegistryId) (owner : UInt32) (specs : List VariantSpec)
    (w : World) :
    (w.addVariants r owner specs).1.map (·.tag.fields) = specs.map (·.fields) := by
  induction specs generalizing w with
  | nil => rfl
  | cons spec rest ih => simp only [World.addVariants, List.map_cons, addVariant_fields, ih]

/-! ### Values of an instance -/

/-- Every living instance has a value for each field of its tag. -/
def Heap.Full (h : Heap) : Prop :=
  ∀ id tag values, h.object? id = some (.content (.fields tag values)) →
    values.length = tag.arity

namespace Heap.Full
variable {h : Heap}

theorem push (hf : h.Full) (o : Object)
    (ho : ∀ tag values, o = .content (.fields tag values) → values.length = tag.arity) :
    (h.push o).Full := by
  intro id tag values hid
  rw [Heap.object?_push] at hid
  split at hid
  · exact ho tag values (Option.some.inj hid)
  · exact hf id tag values hid

theorem canonicalize {w : World} (hf : w.heap.Full) (r : RegistryId) {tag : Tag}
    {fields : List Value} (hlength : fields.length = tag.arity) :
    (w.canonicalize r tag fields).2.heap.Full := by
  obtain ⟨registries, h | h⟩ := World.canonicalize_frame w r tag fields <;> rw [h]
  · exact hf
  · refine hf.push _ fun tag' values ho => ?_
    cases ho
    exact hlength

/-- A variant that gets an instance at once has no fields. -/
theorem addVariant {w : World} (hf : w.heap.Full) (r : RegistryId) (owner : UInt32)
    (spec : VariantSpec) : (w.addVariant r owner spec).2.heap.Full := by
  unfold World.addVariant
  dsimp only
  split
  · next hsingle =>
    have hnone : spec.fields = [] := List.isEmpty_iff.mp hsingle
    exact canonicalize (w := World.withTag w r) hf r (by rw [Tag.arity, hnone]; rfl)
  · exact hf

theorem addVariants {w : World} (hf : w.heap.Full) (r : RegistryId) (owner : UInt32)
    (specs : List VariantSpec) : (w.addVariants r owner specs).2.heap.Full := by
  induction specs generalizing w with
  | nil => exact hf
  | cons spec rest ih => exact ih (hf.addVariant r owner spec)

/-- The arguments of a construction are as many as the fields, in any form. -/
theorem construct {w w' : World} (hf : w.heap.Full) {v : Variant} {form : Form} {x : Value}
    (hrun : form.run v w = (.ok x, w')) : w'.heap.Full := by
  rcases Form.run_ok hrun with ⟨values, -, hlength, hcon⟩ | ⟨-, rfl, -⟩
  · have hfull := hf.canonicalize v.registry hlength
    rw [hcon] at hfull
    exact hfull
  · exact hf

end Heap.Full

/-! ### Runs -/

/-- No declared tag names a field twice, and every living instance has a value for each
field of its tag. -/
structure Client.Fielded (c : Client) : Prop where
  distinct : ∀ p ∈ c.declared, p.2.fields.Nodup
  full : c.world.heap.Full

namespace Client

theorem fielded_start : Fielded {} where
  distinct := by simp
  full _ _ _ ho := by cases Heap.lt_size ho

theorem Fielded.step {c c' : Client} (hc : c.Fielded) (h : Step c c') : c'.Fielded := by
  cases h with
  | registry => exact ⟨hc.distinct, hc.full⟩
  | content content hplain hin =>
    refine ⟨hc.distinct, hc.full.push _ fun tag values ho => ?_⟩
    cases ho
    exact absurd rfl (hplain tag values)
  | function | lazy => exact ⟨hc.distinct, hc.full.push _ fun _ _ ho => by cases ho⟩
  | declare r name base? specs d w hr hb hrun =>
    obtain ⟨hcheck, owner, hown, -, rfl⟩ := World.declare_ok hrun
    refine ⟨fun p hp => ?_, Heap.Full.addVariants (w := c.world.withData r) hc.full r owner specs⟩
    rcases List.mem_append.mp hp with hp | hp
    · exact hc.distinct p hp
    · obtain ⟨v, hv, rfl⟩ := List.mem_map.mp hp
      have hfields : v.tag.fields ∈ specs.map (·.fields) := by
        rw [← World.addVariants_fields r owner specs (c.world.withData r), ← hown]
        exact List.mem_map_of_mem hv
      obtain ⟨spec, hspec, heq⟩ := List.mem_map.mp hfields
      exact heq ▸ checkVariants_fields hcheck spec hspec
  | construct d v form x w hd hv hin hrun => exact ⟨hc.distinct, hc.full.construct hrun⟩
  | release heap data hd hr =>
    exact ⟨hc.distinct, fun id tag values ho => hc.full id tag values (hr.object id _ ho)⟩
  | purge => exact ⟨hc.distinct, hc.full⟩
  | other w hheap => exact ⟨hc.distinct, hheap ▸ hc.full⟩

end Client

namespace Holder
variable {k k' : Holder}

theorem Step.fielded (h : Step k k') (hk : k.client.Fielded) : k'.client.Fielded := by
  cases h with
  | client c h => exact hk.step h
  | construct v form x w hv hin hrun => exact ⟨hk.distinct, hk.full.construct hrun⟩
  | clone | letGo => exact hk

theorem Reachable.fielded (hk : k.Reachable) : k.client.Fielded := by
  induction hk with
  | refl => exact Client.fielded_start
  | tail _ hstep ih => exact hstep.fielded ih

/-- **An instance has one value for each field, and its fields differ.** This is so of
every living instance in whatever a program comes to. -/
theorem Reachable.fields_of_instance (hk : k.Reachable) {v : Value} {tag : Tag}
    {values : List Value} (hinst : k.world.heap.instance? v = some (tag, values)) :
    tag.fields.Nodup ∧ values.length = tag.arity := by
  obtain ⟨id, rfl, ho⟩ := Heap.instance?_eq_some.mp hinst
  obtain ⟨r, -, hknown, -⟩ := hk.sound.client.world.instances id tag values ho
  exact ⟨hk.fielded.distinct _ hknown, hk.fielded.full id tag values ho⟩

end Holder

end OpenVariants

import OpenVariants.Proofs.Declared

/-! Programs that hold variants.

Besides data a program holds variants on their own: a clone of a variant has its
instance as the declaration does, and constructs when the declaration is long gone. So
whatever the program lets go of, the singletons of its variants stay
(`Holder.Step.client`). What holds of the variants of held data holds of these as
well (`Holder.Sound.has`). -/
namespace OpenVariants

/-- A program, and the variants that it holds on their own. -/
structure Holder where
  client : Client := {}
  variants : List Variant := []

namespace Holder

abbrev world (k : Holder) : World := k.client.world

abbrev data (k : Holder) : List Data := k.client.data

/-- The program after a construction. -/
def withWorld (k : Holder) (w : World) : Holder := {k with client := {k.client with world := w}}

/-- The program after a declaration in a registry. -/
def withData (k : Holder) (r : RegistryId) (base? : Option Data) (d : Data) (w : World) : Holder :=
  {k with client :=
    ⟨w, d :: k.data, k.client.declared ++ (d.own base?).map fun v => (r, v.tag)⟩}

/-- What some data, and the variants that are held, keep alive. -/
def kept (k : Holder) (data : List Data) : List Value :=
  data.flatMap Data.singletons ++ k.variants.filterMap fun v => v.singleton?.map Value.inst

/-- The program after it let go of all but some data, and of all values. -/
def keeping (k : Holder) (data : List Data) : Holder :=
  {k with client := {k.client with
    world := {k.world with heap := k.world.heap.collect (k.kept data)}
    data := data}}

/-- A variant in hand, on its own or in data. -/
def Has (k : Holder) (v : Variant) : Prop := v ∈ k.variants ∨ ∃ d ∈ k.data, v ∈ d.variants

inductive Step (k : Holder) : Holder → Prop
  /-- What a program does that holds data alone; the singletons of held variants live on. -/
  | client (c : Client) (h : k.client.Step c)
    (hheld : ∀ v ∈ k.variants, ∀ id, v.singleton? = some id → c.world.heap.alive id = true) :
    Step k {k with client := c}
  | clone (d : Data) (v : Variant) (hd : d ∈ k.data) (hv : v ∈ d.variants) :
    Step k {k with variants := v :: k.variants}
  | construct (v : Variant) (form : Form) (x : Value) (w : World) (hv : v ∈ k.variants)
    (hin : ∀ a ∈ form.values, k.world.heap.Proper a) (hrun : form.run v k.world = (.ok x, w)) :
    Step k (k.withWorld w)
  | letGo (variants : List Variant) (h : variants ⊆ k.variants) : Step k {k with variants}

/-- Any number of steps. -/
abbrev Steps : Holder → Holder → Prop := Relation.ReflTransGen Step

/-- What a program can come to from nothing. -/
def Reachable (k : Holder) : Prop := Steps {} k

/-! ### Invariants -/

/-- The program is sound, and so are the variants that it holds. -/
structure Sound (k : Holder) : Prop where
  client : k.client.Sound
  variants : ∀ v ∈ k.variants, v.Good k.client.declared k.world.heap

theorem Sound.has {k : Holder} (hs : k.Sound) {v : Variant} (hv : k.Has v) :
    v.Good k.client.declared k.world.heap := by
  rcases hv with hv | ⟨d, hd, hv⟩
  · exact hs.variants v hv
  · exact (hs.client.data d hd).variants v hv

/-- What a construction through a held variant does to the program's world. -/
theorem Sound.constructs {k : Holder} (hs : k.Sound) {v : Variant} {form : Form} {x : Value}
    {w : World} (hv : k.Has v) (hin : ∀ a ∈ form.values, k.world.heap.Proper a)
    (hrun : form.run v k.world = (.ok x, w)) :
    (∃ values, form.fields k.world.heap v = .ok values ∧
      World.Constructed k.client.declared k.world v.registry v.tag values x w) ∨
    (form = .unit ∧ w = k.world ∧ v.singleton = .ok x) :=
  hs.client.world.constructs (hs.has hv).known hin hrun

/-- Where all that lives lives on, so do the singletons of held variants. -/
theorem Sound.client_step {k : Holder} (hs : k.Sound) {c : Client} (h : k.client.Step c)
    (he : k.world.heap.Extends c.world.heap) : Step k {k with client := c} := by
  refine .client c h fun v hv id hid => ?_
  have hp := ((hs.variants v hv).inst id hid).1
  exact Heap.holds_iff.mp (hp.extends he).holds id rfl

/-- A construction through whatever variant is in hand is a step. -/
theorem Sound.construct {k : Holder} (hs : k.Sound) {v : Variant} {form : Form} {x : Value}
    {w : World} (hv : k.Has v) (hin : ∀ a ∈ form.values, k.world.heap.Proper a)
    (hrun : form.run v k.world = (.ok x, w)) : Step k (k.withWorld w) := by
  have he := hs.client.world.construct_extends (hs.has hv).known hin hrun
  rcases hv with hv | ⟨d, hd, hv⟩
  · exact .construct v form x w hv hin hrun
  · exact hs.client_step (.construct k.client d v form x w hd hv hin hrun) he

/-- A declaration is a step. -/
theorem Sound.declare {k : Holder} (hs : k.Sound) {r : RegistryId} {name : String}
    {base? : Option Data} {specs : List VariantSpec} {d : Data} {w : World}
    (hr : r < k.world.registries.size) (hb : ∀ b, base? = some b → b ∈ k.data)
    (hrun : OpenVariants.declare r name base? specs k.world = (.ok d, w)) :
    Step k (k.withData r base? d w) := by
  have hdec := (hs.client.world.declare hr (fun b h => hs.client.data b (hb b h)) hrun).1
  exact hs.client_step (.declare k.client r name base? specs d w hr hb hrun) hdec.extends_

/-- Letting go is a step. -/
theorem Sound.keeping {k : Holder} (hs : k.Sound) {data : List Data} (hd : data ⊆ k.data) :
    Step k (k.keeping data) := by
  have hproper : ∀ v ∈ k.kept data, k.world.heap.Proper v := by
    intro v hv
    rcases List.mem_append.mp hv with hv | hv
    · obtain ⟨d, hmem, hv⟩ := List.mem_flatMap.mp hv
      exact (hs.client.data d (hd hmem)).singletons_proper v hv
    · obtain ⟨u, hu, hmap⟩ := List.mem_filterMap.mp hv
      obtain ⟨id, hid, rfl⟩ := Option.map_eq_some_iff.mp hmap
      exact ((hs.variants u hu).inst id hid).1
  have hretains := Heap.retains_collect hs.client.world.heap _ hproper
  refine .client _ (.release k.client _ data hd ⟨hretains.size, hretains.object, hretains.closed,
    fun v hv => hretains.kept v (List.mem_append_left _ hv)⟩) fun u hu id hid => ?_
  have hkept : Value.inst id ∈ k.kept data :=
    List.mem_append_right _ (List.mem_filterMap.mpr ⟨u, hu, by rw [hid]; rfl⟩)
  exact Heap.holds_iff.mp (hretains.kept _ hkept) id rfl

/-- A sweep is a step. -/
theorem Sound.sweep {k : Holder} (hs : k.Sound) (r : RegistryId) :
    Step k (k.withWorld (k.world.sweep r)) :=
  hs.client_step (.purge k.client r) (Heap.Extends.refl _)

/-- What leaves objects and registries as they are is a step. -/
theorem Sound.other {k : Holder} (hs : k.Sound) {w : World} (hheap : w.heap = k.world.heap)
    (hregistries : w.registries = k.world.registries) (hserials : w.serials = k.world.serials) :
    Step k (k.withWorld w) :=
  hs.client_step (.other k.client w hheap hregistries hserials) (hheap ▸ Heap.Extends.refl _)

/-- No object comes back, and no number is used twice. -/
theorem Sound.before {k k' : Holder} (hs : k.Sound) (h : Step k k') :
    k.world.heap.Before k'.world.heap := by
  cases h with
  | client c h hheld => exact hs.client.before h
  | construct v form x w hv hin hrun =>
    rcases hs.constructs (.inl hv) hin hrun with ⟨_, _, hcon⟩ | ⟨_, rfl, _⟩
    · exact hcon.before
    · exact Heap.Before.refl _
  | clone | letGo => exact Heap.Before.refl _

theorem Step.declared_grows {k k' : Holder} (h : Step k k') :
    k.client.declared <+: k'.client.declared := by
  cases h with
  | client c h hheld => exact h.declared_grows
  | _ => exact List.prefix_rfl

theorem Sound.step {k k' : Holder} (hs : k.Sound) (h : Step k k') : k'.Sound := by
  have hbefore := hs.before h
  cases h with
  | client c h hheld =>
    refine ⟨hs.client.step h, fun v hv => (hs.variants v hv).later h.declared_grows hbefore ?_⟩
    intro id hid
    exact Heap.holds_iff.mpr fun _ h => Option.some.inj h ▸ hheld v hv id hid
  | clone d v hd hv =>
    refine ⟨hs.client, fun u hu => ?_⟩
    rcases List.mem_cons.mp hu with rfl | hu
    · exact hs.has (.inr ⟨d, hd, hv⟩)
    · exact hs.variants u hu
  | construct v form x w hv hin hrun =>
    have hsame := List.prefix_rfl (l := k.client.declared)
    rcases hs.constructs (.inl hv) hin hrun with ⟨_, _, hcon⟩ | ⟨_, rfl, _⟩
    · exact ⟨⟨hcon.canonical, fun d hd => (hs.client.data d hd).extends hsame hcon.before hcon.extends_⟩,
        fun u hu => (hs.variants u hu).extends hsame hcon.before hcon.extends_⟩
    · exact hs
  | letGo variants h => exact ⟨hs.client, fun v hv => hs.variants v (h hv)⟩

theorem Sound.steps {k k' : Holder} (hs : k.Sound) (h : Steps k k') : k'.Sound := by
  induction h with
  | refl => exact hs
  | tail _ hstep ih => exact ih.step hstep

theorem Sound.stepsBefore {k k' : Holder} (hs : k.Sound) (h : Steps k k') :
    k.world.heap.Before k'.world.heap := by
  induction h with
  | refl => exact Heap.Before.refl _
  | tail hsteps hstep ih => exact ih.trans ((hs.steps hsteps).before hstep)

theorem Steps.declared_grows {k k' : Holder} (h : Steps k k') :
    k.client.declared <+: k'.client.declared := by
  induction h with
  | refl => exact List.prefix_rfl
  | tail _ hstep ih => exact ih.trans hstep.declared_grows

theorem Reachable.sound {k : Holder} (hk : k.Reachable) : k.Sound :=
  Sound.steps ⟨Client.sound_start, by simp⟩ hk

/-- What a program does that holds data alone. -/
theorem Steps.of_client {c c' : Client} (h : Client.Steps c c') : Steps ⟨c, []⟩ ⟨c', []⟩ := by
  induction h with
  | refl => exact .refl
  | tail _ hstep ih => exact ih.tail (.client _ hstep (by simp))

end Holder

end OpenVariants

import OpenVariants.Proofs.Holder

/-! Canonical construction.

In whatever a program comes to, equal fields under one tag are one living instance,
and a construction in any form gives an instance of its variant on its arguments. -/
namespace OpenVariants

/-- A variant of good data is found by its name. -/
theorem Data.Good.variant?_eq {declared : List (RegistryId × Tag)} {h : Heap} {d : Data}
    (hd : d.Good declared h) {v : Variant} (hv : v ∈ d.variants) : d.variant? v.name = some v := by
  unfold Data.variant?
  have hnames := hd.names
  generalize d.variants = variants at hv hnames
  induction variants with
  | nil => cases hv
  | cons u rest ih =>
    rw [List.map_cons, List.nodup_cons] at hnames
    rcases List.mem_cons.mp hv with rfl | hv
    · simp
    · have hne : u.name ≠ v.name := fun h => hnames.1 (List.mem_map.mpr ⟨v, hv, h.symm⟩)
      rw [List.find?_cons_of_neg (by simpa using hne)]
      exact ih hv hnames.2

/-- A facade takes the instances of its data. -/
theorem Data.Good.wrap_eq {declared : List (RegistryId × Tag)} {w : World} {f : Facade} {h : Heap}
    (hd : f.data.Good declared h) {v : Variant} (hv : v ∈ f.data.variants) {id : ObjectId}
    {values : List Value} (hi : w.heap.instance? (.inst id) = some (v.tag, values)) :
    f.wrap (.inst id) w = .ok ⟨f, id⟩ := by
  have htag : f.data.hasTag v.tag = true := by
    unfold Data.hasTag
    rw [show v.tag.name = v.name from rfl, hd.variant?_eq hv]
    simp [Tag.same]
  simp [Facade.wrap, hi, htag]

/-- A construction gives an instance of its variant on its arguments, unless the ids of
tags are used up. -/
theorem World.Canonical.construct_inst {declared : List (RegistryId × Tag)} {w w' : World}
    (hc : w.Canonical declared) {v : Variant} {form : Form} {x : Value}
    (hgood : v.Good declared w.heap)
    (hcount : (World.tagsOf declared v.registry).length < UInt32.size)
    (hin : ∀ a ∈ form.values, w.heap.Proper a) (hrun : form.run v w = (.ok x, w')) :
    ∃ args values, form.fields w.heap v = .ok args ∧
      w'.heap.instance? x = some (v.tag, values) ∧ Value.AllSame values args := by
  rcases hc.constructs hgood.known hin hrun with ⟨args, hf, hcon⟩ | ⟨rfl, rfl, hsingle⟩
  · obtain ⟨tag, values, hinst, htag, hpath⟩ := hcon.inst
    simp only [World.canonicalPath, List.cons.injEq, Key.tag.injEq] at hpath
    have heq := hcon.canonical.tag_of_id hcount htag hgood.known hpath.1
    obtain ⟨id, rfl, ho⟩ := Heap.instance?_eq_some.mp hinst
    have hargs : ∀ a ∈ args, w'.heap.Proper a := fun a ha =>
      (fields_proper hc.heap hin hf a ha).extends hcon.extends_
    refine ⟨args, values, hf, by rw [hinst, heq], ?_⟩
    exact (Heap.allSame_iff (fun a ha => (hcon.canonical.heap id _ ho a ha).1) hargs).mpr hpath.2
  · unfold Variant.singleton at hsingle
    cases hid : v.singleton? with
    | none => simp [hid] at hsingle
    | some id =>
      simp only [hid, Except.ok.injEq] at hsingle
      refine ⟨[], [], ?_, hsingle ▸ (hgood.inst id hid).2 hcount, .nil⟩
      simp [Form.fields, Variant.singleton, hid, Except.map]

/-- Construction gives the living instance of a path that has one. -/
theorem World.Canonical.canonicalize_eq_of_living {declared : List (RegistryId × Tag)} {w : World}
    (hc : w.Canonical declared) {r : RegistryId} {tag tag' : Tag} {fields values : List Value}
    {x : Value} (hx : w.heap.instance? x = some (tag', values)) (ht : (r, tag') ∈ declared)
    (hpath : canonicalPath tag' values = canonicalPath tag fields) :
    w.canonicalize r tag fields = (x, w) := by
  obtain ⟨id, rfl, ho⟩ := Heap.instance?_eq_some.mp hx
  obtain ⟨r', reg, ht', hreg, hstored⟩ := hc.instances id tag' values ho
  cases hc.serials _ ht _ ht' rfl
  have hlive : (Store.Stored.weak (.inst id)).alive w.heap.alive = true :=
    (Heap.proper_inst ho).holds
  rw [canonicalize_eq hreg (hc.registries r reg hreg).1.retention, ← hpath, Store.Level.get?,
    hstored, Option.bind_some, Store.Stored.load, if_pos hlive]
  rfl

theorem Client.tagsOf_length (c : Client) (r : RegistryId) :
    (World.tagsOf c.declared r).length = c.variantCount r := by
  simp [World.tagsOf, variantCount]

namespace Holder

/-- A construction gives an instance of its variant on its arguments. -/
theorem Sound.construct_inst {k : Holder} (hs : k.Sound) {v : Variant} {form : Form} {x : Value}
    {w : World} (hv : k.Has v) (hcount : k.client.variantCount v.registry < UInt32.size)
    (hin : ∀ a ∈ form.values, k.world.heap.Proper a) (hrun : form.run v k.world = (.ok x, w)) :
    ∃ args values, form.fields k.world.heap v = .ok args ∧
      w.heap.instance? x = some (v.tag, values) ∧ Value.AllSame values args := by
  rw [← Client.tagsOf_length] at hcount
  exact hs.client.world.construct_inst (hs.has hv) hcount hin hrun

/-- What lives when a construction begins lives when it ends. -/
theorem Sound.construct_extends {k : Holder} (hs : k.Sound) {v : Variant} {form : Form} {x : Value}
    {w : World} (hv : k.Has v) (hin : ∀ a ∈ form.values, k.world.heap.Proper a)
    (hrun : form.run v k.world = (.ok x, w)) : k.world.heap.Extends w.heap :=
  hs.client.world.construct_extends (hs.has hv).known hin hrun

/-- **Construction is canonical.** Whatever a program has done, two living instances of
one tag with the same fields are one instance; and a construction in any form that
succeeds, through a variant of held data or a clone, gives an instance of its variant with
the same fields as its arguments. A facade of held data with the variant makes its view of
that, and takes it for what it is. -/
theorem Reachable.canonical_construction {k : Holder} (hk : k.Reachable) :
    (∀ x y tag tag' values values', k.world.heap.instance? x = some (tag, values) →
      k.world.heap.instance? y = some (tag', values') → tag.same tag' = true →
      Value.AllSame values values' → x = y) ∧
    ∀ v, k.Has v → k.client.variantCount v.registry < UInt32.size →
      ∀ (form : Form) (x : Value) (w : World), (∀ a ∈ form.values, k.world.heap.Proper a) →
        form.run v k.world = (.ok x, w) →
        ∃ args values, form.fields k.world.heap v = .ok args ∧
          w.heap.instance? x = some (v.tag, values) ∧
          Value.AllSame values args ∧
          ∀ f : Facade, f.data ∈ k.data → v ∈ f.data.variants →
            ∃ id, x = .inst id ∧ f.view x w = .ok ⟨f, id⟩ ∧ f.wrap x w = .ok ⟨f, id⟩ := by
  have hs := hk.sound
  refine ⟨fun x y tag tag' values values' hx hy htag hsame => ?_,
    fun v hv hcount form x w hin hrun => ?_⟩
  · obtain ⟨i, rfl, hi⟩ := Heap.instance?_eq_some.mp hx
    obtain ⟨j, rfl, hj⟩ := Heap.instance?_eq_some.mp hy
    rw [hs.client.world.eq_of_same hi hj (by simpa [Tag.same] using htag) hsame]
  · obtain ⟨args, values, hf, hinst, hsame⟩ := hs.construct_inst hv hcount hin hrun
    refine ⟨args, values, hf, hinst, hsame, fun f hd hmem => ?_⟩
    obtain ⟨id, rfl, _⟩ := Heap.instance?_eq_some.mp hinst
    exact ⟨id, rfl, rfl, (hs.client.data f.data hd).wrap_eq hmem hinst⟩

end Holder

namespace Client

/-! ### Numbers as an example -/

/-- A program that declared numbers. -/
def numbers : Client :=
  let (d, w) := World.addData 0 "Number" none [⟨"Zero", []⟩, ⟨"Next", ["of"]⟩]
    (World.addRegistry {} {}).2
  ⟨w, [d], d.variants.map fun v => (0, v.tag)⟩

theorem numbers_reachable : numbers.Reachable := by
  have hregistry : Steps {} {world := (World.addRegistry {} {}).2} :=
    .single (.registry {} {})
  refine hregistry.tail ?_
  exact .declare _ 0 "Number" none [⟨"Zero", []⟩, ⟨"Next", ["of"]⟩] _ _ (by decide) (by simp) rfl

def zero : Variant := ⟨⟨1, 0, "Zero", [], 0⟩, some 0, 0⟩

def next : Variant := ⟨⟨2, 1, "Next", ["of"], 0⟩, none, 0⟩

/-- The declaration of the program that declared numbers. -/
def number : Data :=
  (World.addData 0 "Number" none [⟨"Zero", []⟩, ⟨"Next", ["of"]⟩] (World.addRegistry {} {}).2).1

/-- The program after it constructed the number after zero. -/
def one : Client := {numbers with world := ((Form.positional [.inst 0]).run next numbers.world).2}

theorem zero_proper : ∀ a ∈ [Value.inst 0], numbers.world.heap.Proper a := by
  have hzero : numbers.world.heap.object? 0 = some (.content (.fields zero.tag [])) := rfl
  exact Heap.proper_inst_alone hzero

theorem numbers_one : Step numbers one :=
  .construct numbers _ next (.positional [.inst 0]) (.inst 1) _ List.mem_cons_self
    (.tail _ List.mem_cons_self) zero_proper rfl

end Client

namespace Holder

/-- The program with one number after zero, and a clone of the variant for such numbers. -/
def nextHeld : Holder := ⟨Client.one, [Client.next]⟩

theorem nextHeld_reachable : nextHeld.Reachable := by
  have hone : Reachable ⟨Client.one, []⟩ :=
    Steps.of_client (Client.numbers_reachable.tail Client.numbers_one)
  exact hone.tail (.clone Client.number Client.next List.mem_cons_self (.tail _ List.mem_cons_self))

theorem nextHeld_zero : ∀ a ∈ [Value.inst 0], nextHeld.world.heap.Proper a := by
  have hzero : nextHeld.world.heap.object? 0 = some (.content (.fields Client.zero.tag [])) := rfl
  exact Heap.proper_inst_alone hzero

/-- The number after zero, asked for by name of the clone, is the one that is there, and no
other instance has its tag and field. -/
theorem next_zero_once :
    (∃ w, (Form.keyed [("of", .inst 0)]).run Client.next nextHeld.world = (.ok (.inst 1), w) ∧
      ∃ args values,
        (Form.keyed [("of", .inst 0)]).fields nextHeld.world.heap Client.next = .ok args ∧
        w.heap.instance? (.inst 1) = some (Client.next.tag, values) ∧ Value.AllSame values args ∧
        (⟨Client.number, []⟩ : Facade).view (.inst 1) w = .ok ⟨⟨Client.number, []⟩, 1⟩) ∧
    ∀ y values, nextHeld.world.heap.instance? y = some (Client.next.tag, values) →
      Value.AllSame [.inst 0] values → .inst 1 = y := by
  obtain ⟨hunique, hconstruct⟩ := nextHeld_reachable.canonical_construction
  refine ⟨⟨_, rfl, ?_⟩, fun y values hy hsame => ?_⟩
  · obtain ⟨args, values, hargs, hinst, hsame, hfacade⟩ := hconstruct Client.next
      (.inl List.mem_cons_self) (by decide) (.keyed [("of", .inst 0)]) (.inst 1) _ nextHeld_zero rfl
    obtain ⟨id, hid, hview, -⟩ := hfacade ⟨Client.number, []⟩ List.mem_cons_self
      (.tail _ List.mem_cons_self)
    cases hid
    exact ⟨args, values, hargs, hinst, hsame, hview⟩
  · exact hunique (.inst 1) y Client.next.tag Client.next.tag [.inst 0] values rfl hy rfl hsame

end Holder

end OpenVariants

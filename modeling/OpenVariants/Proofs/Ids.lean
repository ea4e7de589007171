import Mathlib.Data.Nat.ModEq
import OpenVariants.Proofs.Definable

/-! Ids of tags.

A registry gives its tags ids in order, from a counter of 32 bits that starts over when it
is used up. So two tags have one id exactly if a multiple of 2³² declarations lies between
them (`World.Numbers.id_eq_iff`). The canonical store knows tags by their ids: a construction
through one tag gives an instance of another tag of that id, if such an instance on the
fields is alive (`Holder.Reachable.tags_by_id`). `boxes_confused`: it comes to that. -/
namespace OpenVariants

/-! ### Ids and positions -/

theorem ofNat_eq_iff {i j : Nat} : UInt32.ofNat i = UInt32.ofNat j ↔ i ≡ j [MOD UInt32.size] := by
  rw [← UInt32.toNat_inj, UInt32.toNat_ofNat', UInt32.toNat_ofNat']
  rfl

section Tags
variable {declared : List (RegistryId × Tag)} {r : RegistryId} {reg : Registry} {i j : Nat}
  {s t : Tag}

/-- Two tags of a registry have one id exactly if the ids started over between them, and came
as far. -/
theorem World.Numbers.id_eq_iff (hn : Numbers declared r reg)
    (hs : (tagsOf declared r)[i]? = some s) (ht : (tagsOf declared r)[j]? = some t) :
    s.id = t.id ↔ i ≡ j [MOD UInt32.size] := by
  rw [hn.ids i s hs, hn.ids j t ht, ofNat_eq_iff]

theorem World.mem_tagsOf : t ∈ tagsOf declared r ↔ (r, t) ∈ declared := by
  simp [tagsOf]

end Tags

namespace Holder
variable {k : Holder} {r : RegistryId} {v : Variant} {s t : Tag}

/-- A tag of a registry that a variant in hand or a living instance has. -/
inductive Living (k : Holder) (r : RegistryId) (t : Tag) : Prop
  | variant (v : Variant) (hv : k.Has v) (hr : v.registry = r) (htag : v.tag = t)
  | instance_ (x : Value) (values : List Value) (ht : (r, t) ∈ k.client.declared)
    (hinst : k.world.heap.instance? x = some (t, values))

/-- No two living tags of the registry have a multiple of 2³² declarations between them. -/
def Unwrapped (k : Holder) (r : RegistryId) : Prop :=
  ∀ i j s t, (World.tagsOf k.client.declared r)[i]? = some s →
    (World.tagsOf k.client.declared r)[j]? = some t → k.Living r s → k.Living r t →
    i ≡ j [MOD UInt32.size] → s = t

/-- A living instance of another tag that is on the path of a variant and some fields. -/
structure Occupied (k : Holder) (v : Variant) (fields : List Value) (x : Value) (t : Tag)
    (values : List Value) : Prop where
  inst : k.world.heap.instance? x = some (t, values)
  declared : (v.registry, t) ∈ k.client.declared
  other : t ≠ v.tag
  id : t.id = v.tag.id
  same : Value.AllSame values fields

theorem Sound.declared_of_living (hs : k.Sound) (h : k.Living r t) : (r, t) ∈ k.client.declared := by
  cases h with
  | variant v hv hr htag => exact hr ▸ htag ▸ (hs.has hv).known
  | instance_ _ _ ht _ => exact ht

theorem Sound.exists_registry (hs : k.Sound) (ht : (r, t) ∈ k.client.declared) :
    ∃ reg, k.world.registries[r]? = some reg ∧ World.Numbers k.client.declared r reg := by
  obtain ⟨reg, hreg⟩ : ∃ reg, k.world.registries[r]? = some reg :=
    ⟨_, Array.getElem?_eq_getElem (hs.client.world.tags _ ht).1⟩
  exact ⟨reg, hreg, (hs.client.world.registries r reg hreg).2⟩

/-- The ids of living tags differ exactly if no multiple of 2³² declarations is between them. -/
theorem Sound.unwrapped_iff (hs : k.Sound) :
    k.Unwrapped r ↔ ∀ s t, k.Living r s → k.Living r t → s.id = t.id → s = t := by
  constructor
  · intro hunwrapped s t hlives hlivet hid
    have hdeclared := hs.declared_of_living hlives
    obtain ⟨i, hi⟩ := List.getElem?_of_mem (World.mem_tagsOf.mpr hdeclared)
    obtain ⟨j, hj⟩ :=
      List.getElem?_of_mem (World.mem_tagsOf.mpr (hs.declared_of_living hlivet))
    obtain ⟨reg, -, hn⟩ := hs.exists_registry hdeclared
    exact hunwrapped i j s t hi hj hlives hlivet ((hn.id_eq_iff hi hj).mp hid)
  · intro hids i j s t hi hj hlives hlivet hmod
    obtain ⟨reg, -, hn⟩ := hs.exists_registry (hs.declared_of_living hlives)
    exact hids s t hlives hlivet ((hn.id_eq_iff hi hj).mpr hmod)

/-- As long as there are ids for all tags, no two have one. -/
theorem unwrapped_of_count (hcount : k.client.variantCount r ≤ UInt32.size) : k.Unwrapped r := by
  intro i j s t hi hj _ _ hmod
  rw [← Client.tagsOf_length] at hcount
  have hilt : i < UInt32.size := Nat.lt_of_lt_of_le (List.getElem?_eq_some_iff.mp hi).1 hcount
  have hjlt : j < UInt32.size := Nat.lt_of_lt_of_le (List.getElem?_eq_some_iff.mp hj).1 hcount
  rw [hmod.eq_of_lt_of_lt hilt hjlt, hj] at hi
  exact (Option.some.inj hi).symm

/-! ### Constructions -/

/-- A construction gives a new instance of its tag or a living one on its path. -/
theorem Sound.construct_or_living (hs : k.Sound) (hv : k.Has v) (fields : List Value) :
    (∃ x w, k.world.canonicalize v.registry v.tag fields = (x, w) ∧
      w.heap.instance? x = some (v.tag, fields)) ∨
    ∃ x t values, k.world.canonicalize v.registry v.tag fields = (x, k.world) ∧
      k.world.heap.instance? x = some (t, values) ∧ (v.registry, t) ∈ k.client.declared ∧
      World.canonicalPath t values = World.canonicalPath v.tag fields := by
  rcases hs.client.world.canonicalize_cases (hs.has hv).known fields with ⟨hx, hheap⟩ | hliving
  · obtain ⟨x, w, hcon⟩ : ∃ x w, k.world.canonicalize v.registry v.tag fields = (x, w) :=
      ⟨_, _, rfl⟩
    rw [hcon] at hx hheap
    dsimp only at hx hheap
    refine .inl ⟨x, w, hcon, ?_⟩
    rw [hx, hheap, Heap.instance?_inst, Heap.object?_push, if_pos rfl]
  · exact .inr hliving

/-- What is given for a variant has its tag, or is a living instance of another tag with the
id. -/
theorem Reachable.construct_tag (hk : k.Reachable) (hv : k.Has v) {form : Form} {x : Value}
    {w : World} (hrun : form.run v k.world = (.ok x, w)) :
    (∃ values, w.heap.instance? x = some (v.tag, values)) ∨
      ∃ t, k.Living v.registry t ∧ t.id = v.tag.id ∧ t ≠ v.tag := by
  have hs := hk.sound
  -- Whatever living instance has the path, its tag has the id.
  have hliving : ∀ {t values fields}, k.world.heap.instance? x = some (t, values) →
      (v.registry, t) ∈ k.client.declared →
      World.canonicalPath t values = World.canonicalPath v.tag fields → w = k.world →
      (∃ values, w.heap.instance? x = some (v.tag, values)) ∨
        ∃ t, k.Living v.registry t ∧ t.id = v.tag.id ∧ t ≠ v.tag := by
    intro t values fields hinst ht hpath hw
    by_cases htag : t = v.tag
    · exact .inl ⟨values, by rw [hw, hinst, htag]⟩
    · simp only [World.canonicalPath, List.cons.injEq, Key.tag.injEq] at hpath
      exact .inr ⟨t, .instance_ x values ht hinst, hpath.1, htag⟩
  rcases Form.run_ok hrun with ⟨fields, -, -, hcon⟩ | ⟨-, hw, hsingle⟩
  · rcases hs.construct_or_living hv fields with
      ⟨y, w', hnew, hinst⟩ | ⟨y, t, values, hold, hinst, ht, hpath⟩
    · rw [hcon] at hnew
      cases hnew
      exact .inl ⟨fields, hinst⟩
    · rw [hcon] at hold
      cases hold
      exact hliving hinst ht hpath rfl
  · cases hid : v.singleton? with
    | none =>
      rw [Variant.singleton, hid] at hsingle
      cases hsingle
    | some id =>
      rw [Variant.singleton, hid] at hsingle
      cases hsingle
      obtain ⟨t, values, hinst, ht, hpath⟩ := hk.seated hv id hid
      exact hliving hinst ht hpath hw

/-- A living instance of another tag is given for a variant, if it is on its path. -/
theorem Occupied.run_eq (hs : k.Sound) {fields values : List Value} {x : Value}
    (h : k.Occupied v fields x t values) {form : Form} (hform : form ≠ .unit)
    (hin : ∀ a ∈ form.values, k.world.heap.Proper a)
    (hfields : form.fields k.world.heap v = .ok fields) :
    form.run v k.world = (.ok x, k.world) := by
  have hc := hs.client.world
  obtain ⟨id, rfl, ho⟩ := Heap.instance?_eq_some.mp h.inst
  have hproper : ∀ a ∈ values, k.world.heap.Proper a := fun a ha => (hc.heap id _ ho a ha).1
  have hpath : World.canonicalPath t values = World.canonicalPath v.tag fields := by
    rw [World.canonicalPath, World.canonicalPath, h.id,
      (Heap.allSame_iff hproper (fields_proper hc.heap hin hfields)).mp h.same]
  rw [Form.run_eq v form k.world hform, hfields, Variant.constructOn,
    hc.canonicalize_eq_of_living h.inst h.declared hpath]

/-- Otherwise the instance has the tag of the variant, and the fields. -/
theorem Sound.run_eq_of_free (hs : k.Sound) (hv : k.Has v) {fields : List Value}
    (hfree : ¬∃ x t values, k.Occupied v fields x t values) {form : Form} (hform : form ≠ .unit)
    (hin : ∀ a ∈ form.values, k.world.heap.Proper a)
    (hfields : form.fields k.world.heap v = .ok fields) :
    ∃ x w values, form.run v k.world = (.ok x, w) ∧ w.heap.instance? x = some (v.tag, values) ∧
      Value.AllSame values fields := by
  have hproper := fields_proper hs.client.world.heap hin hfields
  have hrun := Form.run_eq v form k.world hform
  rw [hfields, Variant.constructOn] at hrun
  rcases hs.construct_or_living hv fields with
    ⟨x, w, hnew, hinst⟩ | ⟨x, t, values, hold, hinst, ht, hpath⟩
  · rw [hnew] at hrun
    exact ⟨x, w, fields, hrun, hinst, (Heap.allSame_iff hproper hproper).mpr rfl⟩
  · rw [hold] at hrun
    simp only [World.canonicalPath, List.cons.injEq, Key.tag.injEq] at hpath
    obtain ⟨id, rfl, ho⟩ := Heap.instance?_eq_some.mp hinst
    have hvalues : ∀ a ∈ values, k.world.heap.Proper a :=
      fun a ha => (hs.client.world.heap id _ ho a ha).1
    have hsame : Value.AllSame values fields := (Heap.allSame_iff hvalues hproper).mpr hpath.2
    have htag : t = v.tag := by
      by_contra hother
      exact hfree ⟨_, t, values, hinst, ht, hother, hpath.1, hsame⟩
    exact ⟨_, k.world, values, hrun, htag ▸ hinst, hsame⟩

/-- **Ids tell tags apart as long as they do not start over among the living.** Whatever a
program has come to, two tags of a registry have one id exactly if a multiple of 2³²
declarations lies between them. So the ids of living tags differ exactly if there is no such
pair among them, for instance as long as there were no more declarations than ids; and then
each construction gives an instance of the tag that it was asked for. In general it gives a
living instance of another tag exactly if there is one with the id and the fields, and else
one of its tag. -/
theorem Reachable.tags_by_id (hk : k.Reachable) (r : RegistryId) :
    (∀ i j s t, (World.tagsOf k.client.declared r)[i]? = some s →
      (World.tagsOf k.client.declared r)[j]? = some t →
      (s.id = t.id ↔ i ≡ j [MOD UInt32.size])) ∧
    (k.Unwrapped r ↔ ∀ s t, k.Living r s → k.Living r t → s.id = t.id → s = t) ∧
    (k.client.variantCount r ≤ UInt32.size → k.Unwrapped r) ∧
    ∀ v, k.Has v → v.registry = r →
      (k.Unwrapped r → ∀ (form : Form) (x : Value) (w : World), form.run v k.world = (.ok x, w) →
        ∃ values, w.heap.instance? x = some (v.tag, values)) ∧
      ∀ (form : Form) (fields : List Value), form ≠ .unit →
        (∀ a ∈ form.values, k.world.heap.Proper a) →
        form.fields k.world.heap v = .ok fields →
        (∀ x t values, k.Occupied v fields x t values →
          form.run v k.world = (.ok x, k.world)) ∧
        ((¬∃ x t values, k.Occupied v fields x t values) →
          ∃ x w values, form.run v k.world = (.ok x, w) ∧
            w.heap.instance? x = some (v.tag, values) ∧ Value.AllSame values fields) := by
  have hs := hk.sound
  refine ⟨fun i j s t hi hj => ?_, hs.unwrapped_iff, unwrapped_of_count, fun v hv hr => ⟨?_, ?_⟩⟩
  · obtain ⟨reg, -, hn⟩ := hs.exists_registry (World.mem_tagsOf.mp (List.mem_of_getElem? hi))
    exact hn.id_eq_iff hi hj
  · intro hunwrapped form x w hrun
    rcases hk.construct_tag hv hrun with hown | ⟨t, hliving, hid, hother⟩
    · exact hown
    · exact absurd (hs.unwrapped_iff.mp hunwrapped t v.tag (hr ▸ hliving) (.variant v hv hr rfl) hid)
        hother
  · intro form fields hform hin hfields
    exact ⟨fun x t values h => h.run_eq hs hform hin hfields,
      fun hfree => hs.run_eq_of_free hv hfree hform hin hfields⟩

/-! ### Boxes -/

def box : VariantSpec := ⟨"Box", ["content"]⟩

/-- The program after it declared boxes a number of times. -/
def boxes : Nat → Holder
  | 0 => bare
  | n + 1 =>
    (boxes n).withData 0 none (World.addData 0 "B" none [box] (boxes n).world).1
      (World.addData 0 "B" none [box] (boxes n).world).2

/-- A program that made nothing and declared some variants, each a box of its own. -/
structure HasBoxes (k : Holder) (vs : List Variant) : Prop where
  reachable : k.Reachable
  registry : 0 < k.world.registries.size
  empty : ∀ x, k.world.heap.instance? x = none
  tags : World.tagsOf k.client.declared 0 = vs.map (·.tag)
  distinct : (vs.map (·.tag)).Nodup
  box : ∀ v ∈ vs, k.Has v ∧ v.registry = 0 ∧ v.tag.fields = ["content"]

/-- A declaration adds a box with a new serial, and makes no object. -/
theorem addData_box (w : World) :
    ∃ v : Variant, (World.addData 0 "B" none [box] w).1.variants = [v] ∧ v.registry = 0 ∧
      v.tag.fields = ["content"] ∧ v.tag.serial = w.serials + 1 ∧
      (World.addData 0 "B" none [box] w).2.heap = w.heap :=
  ⟨_, rfl, rfl, rfl, rfl, rfl⟩

theorem hasBoxes_bare : bare.HasBoxes [] where
  reachable := .single (.client _ (.registry {} {}) (by simp))
  registry := by decide
  empty x := by
    rw [← Option.not_isSome_iff_eq_none, Option.isSome_iff_exists]
    intro ⟨⟨t, values⟩, hinst⟩
    obtain ⟨id, -, ho⟩ := Heap.instance?_eq_some.mp hinst
    exact Nat.not_lt_zero id (Heap.lt_size ho)
  tags := rfl
  distinct := List.nodup_nil
  box v hv := by cases hv

theorem HasBoxes.declare {vs : List Variant} (h : k.HasBoxes vs) :
    ∃ v, (k.withData 0 none (World.addData 0 "B" none [Holder.box] k.world).1
      (World.addData 0 "B" none [Holder.box] k.world).2).HasBoxes (vs ++ [v]) := by
  have hs := h.reachable.sound
  obtain ⟨v, hvariants, hregistry, hfields, hserial, hheap⟩ := addData_box k.world
  have hrun := @declare_of_ok 0 "B" none [Holder.box] k.world rfl
  obtain ⟨d, w, hadd⟩ : ∃ d w, World.addData 0 "B" none [Holder.box] k.world = (d, w) := ⟨_, _, rfl⟩
  rw [hadd] at hrun hvariants hheap ⊢
  have hsize := (hs.client.world.declare h.registry (by simp) hrun).1.size
  have hown : d.own none = [v] := hvariants
  have htags : World.tagsOf (k.withData 0 none d w).client.declared 0 = (vs ++ [v]).map (·.tag) := by
    rw [withData, World.tagsOf_own, h.tags, hown, List.map_append]
  refine ⟨v, h.reachable.tail (hs.declare h.registry (by simp) hrun), hsize.symm ▸ h.registry,
    fun x => ?_, htags, ?_, fun u hu => ?_⟩
  · show w.heap.instance? x = none
    rw [hheap]
    exact h.empty x
  · rw [List.map_append, List.nodup_append]
    refine ⟨h.distinct, List.nodup_singleton _, fun s hs' t ht heq => ?_⟩
    cases List.mem_singleton.mp ht
    rw [← h.tags, World.mem_tagsOf] at hs'
    have hlt : s.serial < k.world.serials := (hs.client.world.tags _ hs').2
    rw [heq, hserial] at hlt
    omega
  · rcases List.mem_append.mp hu with hu | hu
    · obtain ⟨hhas, hr, hf⟩ := h.box u hu
      exact ⟨hhas.imp_right (Exists.imp fun e he => he.imp_left (List.mem_cons_of_mem _)), hr, hf⟩
    · cases List.mem_singleton.mp hu
      exact ⟨.inr ⟨d, List.mem_cons_self, by rw [hvariants]; exact List.mem_singleton_self v⟩,
        hregistry, hfields⟩

theorem boxes_hasBoxes (n : Nat) : ∃ vs, vs.length = n ∧ (boxes n).HasBoxes vs := by
  induction n with
  | zero => exact ⟨[], rfl, hasBoxes_bare⟩
  | succ n ih =>
    obtain ⟨vs, hlength, h⟩ := ih
    obtain ⟨v, hnext⟩ := h.declare
    exact ⟨vs ++ [v], by rw [List.length_append, hlength]; rfl, hnext⟩

theorem null_proper (h : Heap) : ∀ a ∈ (Form.positional [.null]).values, h.Proper a := by
  intro a ha
  cases List.mem_singleton.mp ha
  exact Heap.proper_of_plain rfl

section Boxes
variable {vs : List Variant} (h : k.HasBoxes vs)
include h

theorem HasBoxes.fields_eq (hv : v ∈ vs) (heap : Heap) :
    (Form.positional [.null]).fields heap v = .ok [.null] := by
  rw [Form.fields, Variant.positional, Tag.arity, (h.box v hv).2.2, List.length_singleton,
    List.length_singleton, if_pos rfl]

theorem HasBoxes.not_occupied {fields : List Value} :
    ¬∃ x t values, k.Occupied v fields x t values := by
  intro ⟨x, t, values, hoccupied⟩
  have hinst := hoccupied.inst
  rw [h.empty x] at hinst
  cases hinst

/-- With one more box than there are ids, the last box has the tag id of the first. What is made
for the first is given for the last. -/
theorem HasBoxes.confused (hlength : vs.length = UInt32.size + 1) :
    ∃ first last x w values, k.Has first ∧ k.Has last ∧ first.registry = 0 ∧ last.registry = 0 ∧
      first.tag.same last.tag = false ∧ first.tag.id = last.tag.id ∧
      (Form.positional [.null]).run first k.world = (.ok x, w) ∧
      (Form.positional [.null]).run last w = (.ok x, w) ∧
      w.heap.instance? x = some (first.tag, values) := by
  have hs := h.reachable.sound
  obtain ⟨first, hfirst⟩ : ∃ v, vs[0]? = some v :=
    ⟨_, List.getElem?_eq_getElem (hlength ▸ Nat.succ_pos _)⟩
  obtain ⟨last, hlast⟩ : ∃ v, vs[UInt32.size]? = some v :=
    ⟨_, List.getElem?_eq_getElem (hlength ▸ Nat.lt_succ_self _)⟩
  have hfirstMem := List.mem_of_getElem? hfirst
  have hlastMem := List.mem_of_getElem? hlast
  obtain ⟨hhas, hr, -⟩ := h.box first hfirstMem
  obtain ⟨hhas', hr', -⟩ := h.box last hlastMem
  have htag : (World.tagsOf k.client.declared 0)[0]? = some first.tag := by
    rw [h.tags, List.getElem?_map, hfirst, Option.map_some]
  have htag' : (World.tagsOf k.client.declared 0)[UInt32.size]? = some last.tag := by
    rw [h.tags, List.getElem?_map, hlast, Option.map_some]
  have hdeclared := World.mem_tagsOf.mp (List.mem_of_getElem? htag)
  have hdeclared' := World.mem_tagsOf.mp (List.mem_of_getElem? htag')
  have hid : first.tag.id = last.tag.id := by
    obtain ⟨reg, -, hn⟩ := hs.exists_registry hdeclared
    exact (hn.id_eq_iff htag htag').mpr (Nat.mod_self UInt32.size).symm
  have hother : first.tag ≠ last.tag := by
    intro heq
    rw [heq, ← htag'] at htag
    rw [h.tags] at htag
    have hnodup := List.nodup_iff_getElem?_ne_getElem?.mp h.distinct 0 UInt32.size (Nat.succ_pos _)
    rw [List.length_map, hlength] at hnodup
    exact hnodup (Nat.lt_succ_self _) htag
  obtain ⟨x, w, values, hrun, hinst, hsame⟩ :=
    hs.run_eq_of_free hhas h.not_occupied (by simp) (null_proper _) (h.fields_eq hfirstMem _)
  have hstep := hs.construct hhas (null_proper _) hrun
  have hoccupied : (k.withWorld w).Occupied last [.null] x first.tag values :=
    ⟨hinst, hr' ▸ hdeclared, hother, hid, hsame⟩
  refine ⟨first, last, x, w, values, hhas, hhas', hr, hr', ?_, hid, hrun,
    hoccupied.run_eq (hs.step hstep) (by simp) (null_proper _) (h.fields_eq hlastMem _), hinst⟩
  rw [Tag.same, beq_eq_false_iff_ne]
  intro hserial
  exact hother (congrArg Prod.snd (hs.client.world.serials _ hdeclared _ hdeclared' hserial))

end Boxes

/-- A box is tagged as such if there is just one. -/
theorem one_box_tagged :
    ∃ v x w values, (boxes 1).Reachable ∧ (boxes 1).Has v ∧ (boxes 1).Unwrapped 0 ∧
      (Form.positional [.null]).run v (boxes 1).world = (.ok x, w) ∧
      w.heap.instance? x = some (v.tag, values) := by
  obtain ⟨vs, hlength, h⟩ := boxes_hasBoxes 1
  obtain ⟨v, hv⟩ := List.exists_mem_of_length_pos (hlength ▸ Nat.one_pos)
  obtain ⟨hhas, hr, -⟩ := h.box v hv
  obtain ⟨-, -, hcount, hconstruct⟩ := h.reachable.tags_by_id 0
  have hunwrapped : (boxes 1).Unwrapped 0 := by
    refine hcount ?_
    rw [← Client.tagsOf_length, h.tags, List.length_map, hlength]
    decide
  obtain ⟨hown, hforms⟩ := hconstruct v hhas hr
  obtain ⟨x, w, -, hrun, -⟩ :=
    (hforms (.positional [.null]) [.null] (by simp) (null_proper _) (h.fields_eq hv _)).2
      h.not_occupied
  obtain ⟨values, hinst⟩ := hown hunwrapped _ x w hrun
  exact ⟨v, x, w, values, h.reachable, hhas, hunwrapped, hrun, hinst⟩

/-- With one box more than there are ids, two boxes are taken for one. -/
theorem boxes_confused :
    (boxes (UInt32.size + 1)).Reachable ∧
      ∃ first last x w values, (boxes (UInt32.size + 1)).Has first ∧
        (boxes (UInt32.size + 1)).Has last ∧ first.registry = 0 ∧ last.registry = 0 ∧
        first.tag.same last.tag = false ∧ first.tag.id = last.tag.id ∧
        (Form.positional [.null]).run first (boxes (UInt32.size + 1)).world = (.ok x, w) ∧
        (Form.positional [.null]).run last w = (.ok x, w) ∧
        w.heap.instance? x = some (first.tag, values) := by
  obtain ⟨vs, hlength, h⟩ := boxes_hasBoxes (UInt32.size + 1)
  exact ⟨h.reachable, h.confused hlength⟩

end Holder

end OpenVariants

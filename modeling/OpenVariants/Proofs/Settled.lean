import OpenVariants.Proofs.Entries
import OpenVariants.Proofs.Hand
import OpenVariants.Proofs.Reach

/-! Settlement.

When a command ends, only what names keep alive lives on. What names stand for stays in
hand (`Fit.settled`), and a second settlement finds nothing to do (`Fit.settled_settled`). -/
namespace OpenVariants

namespace World
variable {w : World}

/-! ### What names keep alive -/

theorem Owns.values (ht : w.Tables) {id : StoreId} (h : w.Owns id) : w.Has (w.storeValues id) := by
  intro v hv
  unfold storeValues at hv
  cases hs : w.stores[id]? with
  | none =>
    rw [hs] at hv
    cases hv
  | some s =>
    rw [hs] at hv
    obtain ⟨path, hpath⟩ := Store.Level.exists_stored_of_mem_strongValues (ht.distinct id s hs) hv
    exact h s hs path v hpath

theorem HasTraitId.has (ht : w.Tables) {id : TraitId} (h : w.HasTraitId id) :
    w.Has (w.traitValues id) := by
  obtain ⟨t, htrait, hin⟩ := h
  unfold traitValues
  rw [htrait]
  refine List.forall_mem_append.mpr ⟨hin.values, fun v hv => ?_⟩
  obtain ⟨store, hstore, hmem⟩ := List.mem_flatMap.mp hv
  exact (hin.stores store hstore).values ht v hmem

theorem HasFacade.has (ht : w.Tables) {f : Facade} (h : w.HasFacade f) : w.Has (w.facadeValues f) := by
  refine List.forall_mem_append.mpr ⟨h.values, fun v hv => ?_⟩
  obtain ⟨p, hp, hmem⟩ := List.mem_flatMap.mp hv
  exact (h.traits p hp).has ht v hmem

/-- What a name keeps alive is in hand. -/
theorem HasBinding.has (ht : w.Tables) {b : Binding} (h : w.HasBinding b) :
    w.Has (w.bindingValues b) := by
  cases b with
  | registry | knot | weak => exact nofun
  | data d => exact h
  | value v => exact List.forall_mem_singleton.mpr h
  | pattern p => exact h
  | rules id =>
    obtain ⟨r, hr, hin⟩ := h
    simp only [bindingValues, hr]
    exact hin.values
  | trait id => exact HasTraitId.has ht h
  | facade f => exact HasFacade.has ht h
  | view v => exact List.forall_mem_cons.mpr ⟨h.1, h.2.has ht⟩
  | method m => exact List.forall_mem_cons.mpr ⟨h.1, h.2.has ht⟩
  | store id => exact Owns.values ht h

theorem Fit.roots (h : w.Fit) : w.Has w.roots := by
  intro v hv
  obtain ⟨p, hp, hmem⟩ := List.mem_flatMap.mp hv
  exact (h.bindings p hp).has h.tables v hmem

/-! ### What stays in hand -/

section
variable {h : Heap} (hb : w.heap.Before h)
include hb

theorem Has.left {values : List Value} (hin : w.Has values) (hl : ∀ v ∈ values, h.holds v = true) :
    ({w with heap := h} : World).Has values :=
  fun v hv => (hin v hv).later hb (hl v hv)

theorem Owns.left {id : StoreId} (hin : w.Owns id) (hl : ∀ v ∈ w.storeValues id, h.holds v = true) :
    ({w with heap := h} : World).Owns id := by
  intro s hs path v hv
  refine (hin s hs path v hv).later hb (hl v ?_)
  unfold storeValues
  have hs' : w.stores[id]? = some s := hs
  rw [hs']
  exact Store.Level.mem_strongValues hv

theorem HasTraitId.left {id : TraitId} (hin : w.HasTraitId id)
    (hl : ∀ v ∈ w.traitValues id, h.holds v = true) : ({w with heap := h} : World).HasTraitId id := by
  obtain ⟨t, ht, hin⟩ := hin
  unfold traitValues at hl
  rw [ht] at hl
  obtain ⟨hvalues, hstores⟩ := List.forall_mem_append.mp hl
  exact ⟨t, ht, hin.values.left hb hvalues, fun id hid => (hin.stores id hid).left hb
    fun v hv => hstores v (List.mem_flatMap.mpr ⟨id, hid, hv⟩), hin.textual⟩

theorem HasFacade.left {f : Facade} (hin : w.HasFacade f)
    (hl : ∀ v ∈ w.facadeValues f, h.holds v = true) : ({w with heap := h} : World).HasFacade f := by
  obtain ⟨hvalues, htraits⟩ := List.forall_mem_append.mp hl
  exact ⟨hin.values.left hb hvalues, fun p hp => (hin.traits p hp).left hb
    fun v hv => htraits v (List.mem_flatMap.mpr ⟨p, hp, hv⟩)⟩

/-- What a name stands for stays in hand if what the name keeps alive is kept. -/
theorem HasBinding.left {b : Binding} (hin : w.HasBinding b)
    (hl : ∀ v ∈ w.bindingValues b, h.holds v = true) : ({w with heap := h} : World).HasBinding b := by
  cases b with
  | registry | knot => trivial
  | weak v => exact Heap.Known.later hb hin
  | data d => exact Has.left hb hin hl
  | value v => exact Heap.Proper.later hb hin (hl v List.mem_cons_self)
  | pattern p => exact Has.left hb hin hl
  | rules id =>
    obtain ⟨r, hr, hin⟩ := hin
    simp only [bindingValues, hr] at hl
    exact ⟨r, hr, hin.values.left hb hl, hin.textual⟩
  | trait id => exact HasTraitId.left hb hin hl
  | facade f => exact HasFacade.left hb hin hl
  | view v =>
    obtain ⟨hinst, hfacade⟩ := List.forall_mem_cons.mp hl
    exact ⟨hin.1.later hb hinst, hin.2.left hb hfacade⟩
  | method m =>
    obtain ⟨hreceiver, htrait⟩ := List.forall_mem_cons.mp hl
    exact ⟨hin.1.later hb hreceiver, hin.2.left hb htrait⟩
  | store id => exact Owns.left hb hin hl

end

theorem before_settled (h : w.Fit) : w.heap.Before w.settled.heap :=
  (Heap.retains_collect h.tables.heap w.roots h.roots).before

/-- What names stand for stays in hand. -/
theorem Fit.settled (h : w.Fit) : w.settled.Fit := by
  have hretains := Heap.retains_collect h.tables.heap w.roots h.roots
  have hb := hretains.before
  refine ⟨⟨h.tables.heap.retains hretains, fun k v hk => (h.tables.knots k v hk).later hb,
    h.tables.distinct, fun i s hs path held hheld => (h.tables.stored i s hs path held hheld).later hb,
    h.tables.traits⟩, fun p hp => ?_⟩
  exact (h.bindings p hp).left hb fun v hv =>
    hretains.kept v (List.mem_flatMap.mpr ⟨p, hp, hv⟩)

/-- A second settlement finds nothing to do. -/
theorem Fit.settled_settled (h : w.Fit) : w.settled.settled = w.settled := by
  have hheap := Heap.collect_collect h.tables.heap w.roots
  exact congrArg (fun heap => {w with heap}) hheap

end World

end OpenVariants

import OpenVariants.Proofs.Heap
import OpenVariants.Proofs.Level
import OpenVariants.Proofs.Run

/-! Stores of a world.

What a change of one store does to what the stores hold, and what is left of the heap
when what was made from a number on is reclaimed: what is older and what the stores
own. -/
namespace OpenVariants.World

/-! ### Changes and reclaiming -/

theorem stores_updateStore (w : World) (id i : StoreId) (change : Heap → Store → Store) :
    (w.updateStore id change).stores[i]? =
      if i = id then (w.stores[i]?).map (change w.heap) else w.stores[i]? := by
  simp only [updateStore]
  rw [Array.getElem?_modify]
  by_cases h : i = id
  · simp [h]
  · simp [h, Ne.symm h]

/-- A change of a store that reads no other store than this one. -/
theorem updateStore_const {w : World} {id : StoreId} {s : Store} (hs : w.stores[id]? = some s)
    (change : Heap → Store → Store) :
    w.updateStore id (fun _ _ => change w.heap s) = w.updateStore id change := by
  have hstores : w.stores.modify id (fun _ => change w.heap s) =
      w.stores.modify id (change w.heap) := by
    refine Array.ext_getElem? fun i => ?_
    rw [Array.getElem?_modify, Array.getElem?_modify]
    split
    · next hi => rw [← hi, hs]; rfl
    · rfl
  exact congrArg (fun stores => {w with stores}) hstores

theorem stores_reclaimed (w : World) (since : ObjectId) :
    (w.reclaimed since).stores = w.stores := by
  unfold reclaimed
  split <;> rfl

theorem size_reclaimed (w : World) (since : ObjectId) :
    (w.reclaimed since).heap.size = w.heap.size := by
  unfold reclaimed
  split
  · rfl
  · simp [Heap.reclaim, Heap.size]

/-- What the stores of a world own. -/
def owners (w : World) : List Value := w.stores.toList.flatMap (·.root.strongValues)

/-- Reclaiming leaves what is older and what the stores own. -/
theorem object?_reclaimed (w : World) (since id : ObjectId) :
    (w.reclaimed since).heap.object? id =
      if id < since ∨ (w.heap.marked w.owners).getD id false = true then w.heap.object? id
      else none := by
  unfold reclaimed
  split
  · next hsize =>
    split
    · rfl
    · next h =>
      cases ho : w.heap.object? id with
      | none => rfl
      | some o => exact absurd (.inl (Nat.lt_of_lt_of_le (Heap.lt_size ho) hsize)) h
  · change (w.heap.reclaim since w.owners).object? id = _
    simp only [Heap.reclaim]
    rw [Heap.object?_filter]
    simp only [Bool.or_eq_true, decide_eq_true_eq]

/-- Reclaiming only lets objects die. -/
theorem before_reclaimed (w : World) (since : ObjectId) :
    w.heap.Before (w.reclaimed since).heap where
  size := Nat.le_of_eq (size_reclaimed w since).symm
  object id o _ ho := by
    rw [object?_reclaimed] at ho
    split at ho
    · exact ho
    · cases ho

/-! ### What a store holds -/

/-- What a store holds under a path, dead or alive. -/
def held? (table : StoreId) (path : List Key) (w : World) : Option Store.Stored :=
  (w.stores[table]?).bind (·.root.stored? path)

theorem stored?_eq_held? (table : StoreId) (path : List Key) (w : World) :
    w.stored? table path = (w.held? table path).bind (·.load w.heap.alive) := by
  unfold stored? held?
  cases w.stores[table]? <;> rfl

/-- An entry that holds a dead value weakly, or nothing, gives nothing. -/
theorem stored?_of_dead {w : World} {id : StoreId} {path : List Key} {v : Value}
    (hdead : w.heap.holds v = false)
    (hheld : ∀ held, w.held? id path = some held → held = .weak v) : w.stored? id path = none := by
  rw [stored?_eq_held?]
  cases h : w.held? id path with
  | none => rfl
  | some held =>
    rw [hheld held h]
    have hlost : (Store.Stored.weak v).alive w.heap.alive = false := hdead
    simp [Store.Stored.load, hlost]

theorem held?_congr {w w' : World} {table : StoreId} (h : w'.stores[table]? = w.stores[table]?)
    (path : List Key) : w'.held? table path = w.held? table path := by
  rw [held?, h]
  rfl

theorem held?_storeSet {w : World} {table : StoreId} {s : Store} (hs : w.stores[table]? = some s)
    {path : List Key} (hpath : path ≠ []) (v : Value) (q : List Key) :
    (w.storeSet table path v).held? table q =
      if q = path then some (s.stored w.heap path v) else w.held? table q := by
  unfold held?
  rw [storeSet, stores_updateStore, if_pos rfl, hs]
  exact Store.Level.stored?_insert _ _ _ _ hpath

theorem held?_storeErase (w : World) (table : StoreId) (path q : List Key) :
    (w.storeErase table path).held? table q = if q = path then none else w.held? table q := by
  unfold held?
  rw [storeErase, stores_updateStore, if_pos rfl]
  cases w.stores[table]? with
  | none => simp
  | some s => exact Store.Level.stored?_erase _ _ _

/-- A value put elsewhere leaves an entry. -/
theorem held?_storeSet_ne {id : StoreId} {path' : List Key} (h : ¬(id = table ∧ path' = path))
    (v : Value) (w : World) : (w.storeSet id path' v).held? table path = w.held? table path := by
  by_cases hid : id = table
  · subst hid
    have hne : path ≠ path' := fun heq => h ⟨rfl, heq.symm⟩
    cases hs : w.stores[id]? with
    | none =>
      refine held?_congr ?_ path
      rw [storeSet, stores_updateStore, if_pos rfl, hs]
      rfl
    | some s =>
      by_cases hpath : path' = []
      · subst hpath
        refine held?_congr ?_ path
        rw [storeSet, stores_updateStore, if_pos rfl, hs]
        rfl
      · rw [held?_storeSet hs hpath, if_neg hne]
  · refine held?_congr ?_ path
    rw [storeSet, stores_updateStore, if_neg (Ne.symm hid)]

theorem held?_storeErase_ne {id : StoreId} {path' : List Key} (h : ¬(id = table ∧ path' = path))
    (w : World) : (w.storeErase id path').held? table path = w.held? table path := by
  by_cases hid : id = table
  · subst hid
    rw [held?_storeErase, if_neg fun heq => h ⟨rfl, heq.symm⟩]
  · refine held?_congr ?_ path
    rw [storeErase, stores_updateStore, if_neg (Ne.symm hid)]

theorem held?_reclaimed (table : StoreId) (path : List Key) (since : ObjectId) (w : World) :
    (w.reclaimed since).held? table path = w.held? table path :=
  held?_congr (by rw [stores_reclaimed]) path

theorem held?_purged {w : World} {table : StoreId} {s : Store} (hs : w.stores[table]? = some s)
    (hd : s.root.Distinct) (q : List Key) :
    (w.updateStore table Store.purged).held? table q =
      if q.all (·.alive w.heap.alive) then (w.held? table q).filter (·.alive w.heap.alive)
      else none := by
  unfold held?
  rw [stores_updateStore, if_pos rfl, hs]
  exact Store.Level.stored?_purged _ hd q

/-- What a store holds strongly is among what it owns. -/
theorem mem_storeValues {w : World} {table : StoreId} {path : List Key} {v : Value}
    (h : w.held? table path = some (.strong v)) : v ∈ w.storeValues table := by
  obtain ⟨s, hs, hv⟩ := Option.bind_eq_some_iff.mp h
  rw [storeValues, hs]
  exact Store.Level.mem_strongValues hv

/-- What a store holds strongly the stores own. -/
theorem mem_owners {w : World} {table : StoreId} {path : List Key} {v : Value}
    (h : w.held? table path = some (.strong v)) : v ∈ w.owners := by
  obtain ⟨s, hs, hv⟩ := Option.bind_eq_some_iff.mp h
  exact List.mem_flatMap.mpr
    ⟨s, Array.mem_toList_iff.mpr (Array.mem_of_getElem? hs), Store.Level.mem_strongValues hv⟩

/-- What the table of a trait holds strongly is kept alive by a name of the trait. -/
theorem mem_roots {w : World} {table : StoreId} {path : List Key} {v : Value}
    (h : w.held? table path = some (.strong v)) {t : Trait} (ht : table ∈ t.heldStores)
    {name : String} {i : TraitId} (hname : (name, Binding.trait i) ∈ w.bindings)
    (htrait : w.traits[i]? = some t) : v ∈ w.roots := by
  have hvalues : v ∈ w.traitValues i := by
    rw [traitValues, htrait]
    exact List.mem_append_right _ (List.mem_flatMap.mpr ⟨table, ht, mem_storeValues h⟩)
  exact List.mem_flatMap.mpr ⟨_, hname, hvalues⟩

/-- What the stores own lives on. -/
theorem holds_reclaimed {w : World} (since : ObjectId) {v : Value} (hv : w.heap.holds v = true)
    (howned : v ∈ w.owners) : (w.reclaimed since).heap.holds v = true := by
  rw [Heap.holds_iff]
  intro id hid
  obtain ⟨o, ho⟩ := Heap.alive_iff.mp (Heap.holds_iff.mp hv id hid)
  rw [Heap.alive_iff, object?_reclaimed,
    if_pos (.inr (Heap.marked_root howned hid (Heap.lt_size ho)))]
  exact ⟨o, ho⟩

/-! ### Tables of memoized traits -/

/-- Memoizing adds a trait with an empty table of its own, and leaves objects and
registries alone. -/
theorem memoize_ok (t : Trait) (bottom : Bottom) (w : World) :
    ∃ w', memoize t bottom w = (.ok w.traits.size, w') ∧
      w'.traits[w.traits.size]? = some (t.memoized w.traits.size ⟨w.stores.size, bottom⟩) ∧
      w'.stores[w.stores.size]? = some ⟨.strong, .nil⟩ ∧
      w'.heap = w.heap ∧ w'.registries = w.registries ∧ w'.serials = w.serials := by
  simp only [memoize, Run.bind_apply, Run.change_apply, Run.get_apply]
  refine ⟨_, rfl, ?_, ?_, rfl, rfl, rfl⟩
  · simp [addTrait, addStore]
  · simp [addTrait, addStore]

end OpenVariants.World

import OpenVariants.Proofs.Pure
import OpenVariants.Proofs.Stores

/-! The table of a memoized pure trait.

While calls are in progress the table has bottoms for their arguments; whatever else
lives in it is right: it has the shape that the call comes to, if it comes to one
(`Table`). Nothing is asked of an entry whose key or value died; since no number is used
twice, neither comes back. -/
namespace OpenVariants

open Client (Steps Reachable)

/-! ### Changes to the stores of a program -/

namespace Client

/-- A program after a change of one of its stores. -/
def updateStore (c : Client) (id : StoreId) (change : Heap → Store → Store) : Client :=
  {c with world := c.world.updateStore id change}

/-- A program after what was made from a number on was reclaimed. -/
def reclaimed (c : Client) (since : ObjectId) : Client :=
  {c with world := c.world.reclaimed since}

theorem later_updateStore (c : Client) (id : StoreId) (change : Heap → Store → Store) :
    c.Later (c.updateStore id change) :=
  ⟨.single (.other c _ rfl rfl rfl), Heap.Extends.refl _, rfl, rfl, rfl, rfl⟩

/-- Reclaiming is letting go, if the data that is held is older. -/
theorem Reachable.steps_reclaimed {c : Client} (hc : c.Reachable) {since : ObjectId}
    (hold : ∀ d ∈ c.data, ∀ v ∈ d.singletons, ∀ id, v.object? = some id → id < since) :
    Steps c (c.reclaimed since) := by
  unfold reclaimed World.reclaimed
  split
  · exact .refl
  · refine .single (.release c _ c.data (List.Subset.refl _) ?_)
    refine Heap.retains_reclaim hc.sound.world.heap since _ _ fun v hv => ?_
    obtain ⟨d, hd, hv⟩ := List.mem_flatMap.mp hv
    exact ⟨(hc.sound.data d hd).singletons_proper v hv, fun id hid => .inl (hold d hd v hv id hid)⟩

/-- Reclaiming what was made meanwhile leaves what lived before. -/
theorem Later.reclaimed {c c' : Client} (hl : c.Later c') (hc : c.Reachable) :
    c.Later (c'.reclaimed c.world.nextObject) := by
  have hold : ∀ d ∈ c'.data, ∀ v ∈ d.singletons, ∀ id, v.object? = some id →
      id < c.world.nextObject := by
    intro d hd v hv id hid
    exact ((hc.sound.data d (hl.data ▸ hd)).singletons_proper v hv).lt_size hid
  have hsteps := (hc.later hl).steps_reclaimed hold
  have hframe : (c'.world.reclaimed c.world.nextObject).nesting = c'.world.nesting ∧
      (c'.world.reclaimed c.world.nextObject).fixed = c'.world.fixed := by
    unfold World.reclaimed
    split <;> exact ⟨rfl, rfl⟩
  refine ⟨hl.steps.trans hsteps, fun id o ho => ?_, hl.data, hl.declared,
    hframe.1.trans hl.nesting, hframe.2.trans hl.fixed⟩
  change (c'.world.reclaimed c.world.nextObject).heap.object? id = some o
  rw [World.object?_reclaimed, if_pos (.inl (Heap.lt_size ho))]
  exact hl.extends_ id o ho

end Client

/-! ### What is right in a table -/

/-- What a table has in a program while calls on some tuples of shapes are in progress,
for a trait whose calls come to shapes. -/
structure Table (table : StoreId) (comesTo : List Shape → Shape → Prop)
    (active : List (List Shape)) (c : Client) : Prop where
  store : ∃ s, c.world.stores[table]? = some s ∧ s.root.Distinct
  /-- Keys and values were made by then. -/
  made : ∀ path held, c.world.held? table path = some held →
    (∀ id, Key.object id ∈ path → id < c.world.heap.size) ∧
      ∀ id, held.value.object? = some id → id < c.world.heap.size
  living : ∀ path held, c.world.held? table path = some held →
    held.alive c.world.heap.alive = true → c.world.heap.Proper held.value
  right : ∀ args values held, Shape.AllShown c.world.heap args values → args ∉ active →
    c.world.held? table (values.map Key.ofValue) = some held →
    held.alive c.world.heap.alive = true →
    ∀ s, comesTo args s → s.Shown c.world.heap held.value

namespace Table
variable {table : StoreId} {comesTo : List Shape → Shape → Prop}
  {active active' : List (List Shape)} {c c' : Client}

/-- The table stays right as a program goes on, as long as it keeps what it holds
strongly. -/
theorem steps (ht : Table table comesTo active c) (hc : c.Reachable) (hsteps : Steps c c')
    (hstore : c'.world.stores[table]? = c.world.stores[table]?)
    (hstrong : ∀ path v, c.world.held? table path = some (.strong v) →
      c'.world.heap.holds v = true) : Table table comesTo active c' := by
  have hbefore := hc.before hsteps
  have hsound := hc.sound.world.heap
  have hsound' : c'.world.heap.Sound := (hc.sound.steps hsteps).world.heap
  have hholds : ∀ path held, c.world.held? table path = some held →
      held.alive c'.world.heap.alive = true → held.alive c.world.heap.alive = true ∧
        c'.world.heap.holds held.value = true := by
    intro path held hheld halive
    cases held with
    | strong v => exact ⟨rfl, hstrong path v hheld⟩
    | weak v => exact ⟨hbefore.holds_of_later (ht.made path _ hheld).2 halive, halive⟩
  refine ⟨hstore ▸ ht.store, fun path held hheld => ?_, fun path held hheld halive => ?_,
    fun args values held hshown hargs hheld halive s hs => ?_⟩
  · rw [World.held?_congr hstore] at hheld
    obtain ⟨hkeys, hvalue⟩ := ht.made path held hheld
    exact ⟨fun id hid => Nat.lt_of_lt_of_le (hkeys id hid) hbefore.size,
      fun id hid => Nat.lt_of_lt_of_le (hvalue id hid) hbefore.size⟩
  · rw [World.held?_congr hstore] at hheld
    obtain ⟨halive', hlater⟩ := hholds path held hheld halive
    exact (ht.living path held hheld halive').later hbefore hlater
  · rw [World.held?_congr hstore] at hheld
    obtain ⟨halive', hlater⟩ := hholds _ held hheld halive
    -- The arguments had their shapes when the entry was made, for their keys are older.
    have hshown' : Shape.AllShown c.world.heap args values := by
      refine hshown.earlier hbefore hsound fun v hv id hk => ?_
      exact (ht.made _ held hheld).1 id (List.mem_map.mpr ⟨v, hv, hk⟩)
    exact (ht.right args values held hshown' hargs hheld halive' s hs).later hbefore hsound'
      hlater

/-- What leaves the table alone and lets nothing die keeps it right. -/
theorem quiet (ht : Table table comesTo active c) (hc : c.Reachable) (hq : c.Quiet table c') :
    Table table comesTo active c' := by
  refine ht.steps hc hq.steps hq.store fun path v hheld => ?_
  exact ((ht.living path _ hheld rfl).extends hq.extends_).holds

theorem withNesting (ht : Table table comesTo active c) (hc : c.Reachable) (n : Nesting) :
    Table table comesTo active (c.withNesting n) :=
  ht.steps hc (.single (c.step_withNesting n)) rfl fun path _ hheld =>
    (ht.living path _ hheld rfl).holds

/-- Reclaiming keeps the table right: the table owns what it holds strongly. -/
theorem reclaimed (ht : Table table comesTo active c') (hl : c.Later c') (hc : c.Reachable) :
    Table table comesTo active (c'.reclaimed c.world.nextObject) := by
  have hc' := hc.later hl
  refine ht.steps hc' (hc'.steps_reclaimed fun d hd v hv id hid => ?_) ?_ fun path v hheld => ?_
  · exact ((hc.sound.data d (hl.data ▸ hd)).singletons_proper v hv).lt_size hid
  · change (c'.world.reclaimed _).stores[table]? = _
    rw [World.stores_reclaimed]
  · exact World.holds_reclaimed _ (ht.living path _ hheld rfl).holds (World.mem_owners hheld)

/-- A right entry, or none, for a tuple whose call ends or begins: no other tuple is
under its path. -/
theorem enter (ht : Table table comesTo active c) (hc : c.Reachable) {args : List Shape}
    {values : List Value} (hin : ∀ v ∈ values, c.world.heap.Proper v)
    (hshown : Shape.AllShown c.world.heap args values)
    (hactive : ∀ us ∈ active, us = args ∨ us ∈ active') (hheap : c'.world.heap = c.world.heap)
    {entry : Option Store.Stored}
    (hstore : ∃ s, c'.world.stores[table]? = some s ∧ s.root.Distinct)
    (hheld : ∀ path, c'.world.held? table path =
      if path = values.map Key.ofValue then entry else c.world.held? table path)
    (hentry : ∀ held, entry = some held → c.world.heap.Proper held.value ∧
      (args ∉ active' → ∀ s, comesTo args s → s.Shown c.world.heap held.value)) :
    Table table comesTo active' c' := by
  refine ⟨hstore, fun path held h => ?_, fun path held h halive => ?_,
    fun us vs held hus hnot h halive s hs => ?_⟩
  · rw [hheld] at h
    rw [hheap]
    split at h
    · next hpath =>
      refine ⟨fun id hid => ?_, fun id hid => (hentry held h).1.lt_size hid⟩
      obtain ⟨v, hv, hk⟩ := List.mem_map.mp (hpath ▸ hid)
      exact (hin v hv).lt_size (Heap.ofValue_eq_object hk)
    · exact ht.made path held h
  · rw [hheld] at h
    rw [hheap] at halive ⊢
    split at h
    · exact (hentry held h).1
    · exact ht.living path held h halive
  · rw [hheld] at h
    rw [hheap] at hus halive ⊢
    split at h
    · next hpath =>
      cases (hus.congr hpath).unique hshown
      exact (hentry held h).2 hnot s hs
    · next hpath =>
      refine ht.right us vs held hus (fun hmem => ?_) h halive s hs
      rcases hactive us hmem with rfl | hmem
      · exact hpath (hc.sound.world.keys_of_allShown hus hshown)
      · exact hnot hmem

/-- A value goes into the table. -/
theorem set (ht : Table table comesTo active c) (hc : c.Reachable) {args : List Shape}
    {values : List Value} (hne : values ≠ []) (hin : ∀ v ∈ values, c.world.heap.Proper v)
    (hshown : Shape.AllShown c.world.heap args values)
    (hactive : ∀ us ∈ active, us = args ∨ us ∈ active') {v : Value} (hv : c.world.heap.Proper v)
    (hright : args ∉ active' → ∀ s, comesTo args s → s.Shown c.world.heap v) :
    Table table comesTo active'
      (c.updateStore table fun heap => Store.set heap (values.map Key.ofValue) v) := by
  obtain ⟨s, hs, hdistinct⟩ := ht.store
  have hvalue : (s.stored c.world.heap (values.map Key.ofValue) v).value = v := by
    unfold Store.stored
    split
    · rfl
    · split <;> rfl
  refine ht.enter hc hin hshown hactive rfl ⟨s.set c.world.heap (values.map Key.ofValue) v, ?_, ?_⟩
    (World.held?_storeSet hs (by simpa using hne) v) fun held h => ?_
  · change (c.world.updateStore _ _).stores[table]? = _
    rw [World.stores_updateStore, if_pos rfl, hs]
    rfl
  · exact hdistinct.insert _ _
  · cases h
    rw [hvalue]
    exact ⟨hv, hright⟩

/-- A bottom goes into the table, and what else was made for it is reclaimed: a call on the
tuple is in progress from then on. -/
theorem install (ht : Table table comesTo active c) (hc : c.Reachable) (hq : c.Quiet table c')
    {args : List Shape} {values : List Value} (hne : values ≠ [])
    (hin : ∀ v ∈ values, c.world.heap.Proper v) (hshown : Shape.AllShown c.world.heap args values)
    {b : Value} (hb : c'.world.heap.Proper b) :
    let c₂ := (c'.updateStore table fun heap =>
      Store.set heap (values.map Key.ofValue) b).reclaimed c.world.nextObject
    c.Later c₂ ∧ Table table comesTo (args :: active) c₂ := by
  have hset := (ht.quiet hc hq).set (hc.later hq.toLater) hne
    (fun v hv => (hin v hv).extends hq.extends_) (hq.toLater.allShown hc hin hshown)
    (fun us hus => .inr (List.mem_cons_of_mem args hus)) hb
    (fun hnot => absurd List.mem_cons_self hnot)
  have hlater := hq.toLater.trans (c'.later_updateStore table
    fun heap => Store.set heap (values.map Key.ofValue) b)
  exact ⟨hlater.reclaimed hc, hset.reclaimed hlater hc⟩

/-- A tuple goes out of the table. -/
theorem erase (ht : Table table comesTo active c) (hc : c.Reachable) {args : List Shape}
    {values : List Value} (hin : ∀ v ∈ values, c.world.heap.Proper v)
    (hshown : Shape.AllShown c.world.heap args values)
    (hactive : ∀ us ∈ active, us = args ∨ us ∈ active') :
    Table table comesTo active'
      (c.updateStore table fun _ => Store.erase (values.map Key.ofValue)) := by
  obtain ⟨s, hs, hdistinct⟩ := ht.store
  refine ht.enter hc hin hshown hactive rfl ⟨s.erase (values.map Key.ofValue), ?_, ?_⟩
    (World.held?_storeErase _ _ _) fun held h => by cases h
  · change (c.world.updateStore _ _).stores[table]? = _
    rw [World.stores_updateStore, if_pos rfl, hs]
    rfl
  · exact hdistinct.erase _

/-- A purge takes entries away and adds none. -/
theorem purged (ht : Table table comesTo active c) :
    Table table comesTo active (c.updateStore table Store.purged) := by
  obtain ⟨s, hs, hdistinct⟩ := ht.store
  have hold : ∀ path held, (c.updateStore table Store.purged).world.held? table path = some held →
      c.world.held? table path = some held := by
    intro path held h
    change (c.world.updateStore table Store.purged).held? table path = some held at h
    rw [World.held?_purged hs hdistinct] at h
    split at h
    · exact (Option.filter_eq_some_iff.mp h).1
    · cases h
  refine ⟨⟨s.purged c.world.heap, ?_, hdistinct.purged _⟩, fun path held h => ?_,
    fun path held h halive => ?_, fun args values held hshown hargs h halive => ?_⟩
  · change (c.world.updateStore _ _).stores[table]? = _
    rw [World.stores_updateStore, if_pos rfl, hs]
    rfl
  · exact ht.made path held (hold path held h)
  · exact ht.living path held (hold path held h) halive
  · exact ht.right args values held hshown hargs (hold _ held h) halive

/-- An empty table is right. -/
theorem empty {retention : Retention} (h : c.world.stores[table]? = some ⟨retention, .nil⟩) :
    Table table comesTo active c := by
  have hnone : ∀ path held, c.world.held? table path ≠ some held := by
    intro path held hheld
    rw [World.held?, h] at hheld
    simp at hheld
  exact ⟨⟨_, h, trivial⟩, fun path held hheld => absurd hheld (hnone path held),
    fun path held hheld => absurd hheld (hnone path held),
    fun _ _ held _ _ hheld => absurd hheld (hnone _ held)⟩

/-- What a call finds in the table is right. -/
theorem hit (ht : Table table comesTo active c) {args : List Shape} {values : List Value}
    (hshown : Shape.AllShown c.world.heap args values) {v : Value}
    (hv : c.world.stored? table (values.map Key.ofValue) = some v) :
    c.world.heap.Proper v ∧
      (args ∉ active → ∀ s, comesTo args s → s.Shown c.world.heap v) := by
  rw [World.stored?_eq_held?] at hv
  obtain ⟨held, hheld, hload⟩ := Option.bind_eq_some_iff.mp hv
  unfold Store.Stored.load at hload
  split at hload
  · next halive =>
    cases hload
    exact ⟨ht.living _ held hheld halive,
      fun hargs => ht.right args values held hshown hargs hheld halive⟩
  · cases hload

end Table

end OpenVariants

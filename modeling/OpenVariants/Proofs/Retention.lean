import OpenVariants.Proofs.Search
import OpenVariants.Proofs.Use

/-! What a store keeps alive.

A value is held strongly only under paths whose objects it does not reach, and it never
comes to reach them, because an object refers to older ones only (`Reachable.apart`). So
no entry keeps a key of its own alive. The entries of other paths may: the value of a
living key is alive, and so is what it refers to, be it the key of another entry
(`chained_keeps_key`). An object that neither the program nor a value under a path
without it reaches is dead, and all entries with it are gone with the next purge
(`Reachable.key_released`). -/
namespace OpenVariants.Store.Use

/-- What the store holds strongly under the paths without an object. -/
def heldElsewhere (id : ObjectId) (u : Use) : List Value :=
  (u.store.root.entries.filter fun e => Key.object id ∉ e.1).filterMap (·.2.strong?)

/-- A key that is dead: no entry with it counts, and the next purge releases them all. -/
structure Released (id : ObjectId) (u : Use) : Prop where
  dead : u.heap.alive id = false
  count : u.store.count u.heap =
    ((u.store.root.entries.filter fun e => Key.object id ∉ e.1).filter
      (Level.living u.heap.alive)).length
  purged : ∀ e ∈ (u.store.purged u.heap).root.entries, Key.object id ∉ e.1
  released : u.store.released u.heap + (u.store.purged u.heap).root.entries.length =
    u.store.root.entries.length

/-- A step brings no way from a value in hand to an object. -/
theorem Step.reached {u u' : Use} (hstep : Step u u') (hs : u.heap.Sound) {v : Value}
    (hv : u.heap.Proper v) {id : ObjectId} (hr : u'.heap.Reached [v] id) :
    u.heap.Reached [v] id := by
  cases hstep with
  | make o _ => exact hr.of_push hs (by simpa using hv)
  | drop heap h => exact hr.of_object h.object
  | set | intern | find | delete | purge | clear => exact hr

/-- What is stored strongly reaches no object of its path. -/
theorem not_reached_of_stored {h : Heap} (hs : h.Sound) {s : Store} {keys : List Value} {v : Value}
    (hkeys : ∀ k ∈ keys, h.Proper k) (hv : h.Proper v)
    (hstored : s.stored h (keys.map Key.ofValue) v = .strong v) {id : ObjectId}
    (hid : Key.object id ∈ keys.map Key.ofValue) : ¬ h.Reached [v] id := by
  intro hr
  have hreaches : h.reachesAny v ((keys.map Key.ofValue).filterMap Key.object?) = true := by
    refine (Heap.reachesAny_iff hs hv fun i hi => ?_).mpr ⟨id, hid, hr⟩
    obtain ⟨k, hk, hkey⟩ := List.mem_map.mp hi
    exact ⟨k, hkeys k hk, hkey⟩
  unfold stored at hstored
  rw [hreaches] at hstored
  split at hstored <;> cases hstored

/-- What is held strongly reaches no object of its path, however long it is held. -/
theorem Reachable.apart {u : Use} (hu : u.Reachable) {path : List Key} {v : Value}
    (hs : u.store.root.stored? path = some (.strong v)) {id : ObjectId}
    (hid : Key.object id ∈ path) : ¬ u.heap.Reached [v] id := by
  obtain ⟨h, hh, retention, hsteps⟩ := hu
  induction hsteps generalizing path v with
  | refl => simp at hs
  | tail hbefore hstep ih =>
    have hk := Reachable.kept ⟨h, hh, retention, hbefore⟩
    rcases hstep.strong hk.distinct hs with hs | ⟨hheap, hv, hstored, keys, hkeys, rfl⟩
    · exact fun hr => ih hs hid (hstep.reached hk.sound (hk.strong path v hs) hr)
    · rw [hheap]
      exact not_reached_of_stored hk.sound hkeys hv hstored hid

/-- What the store holds strongly under no path with an object it holds elsewhere. -/
theorem mem_heldElsewhere {u : Use} (hd : u.store.root.Distinct) {path : List Key} {v : Value}
    (hs : u.store.root.stored? path = some (.strong v)) {id : ObjectId}
    (hid : Key.object id ∉ path) : v ∈ u.heldElsewhere id := by
  refine List.mem_filterMap.mpr ⟨(path, .strong v), ?_, rfl⟩
  exact List.mem_filter.mpr ⟨(Level.mem_entries hd _ _).mpr hs, by simpa using hid⟩

/-- The entries with a dead key neither count nor outlast a purge. -/
theorem released_of_dead {u : Use} {id : ObjectId} (hdead : u.heap.alive id = false) :
    u.Released id := by
  have hgone : ∀ e, Level.living u.heap.alive e = true → Key.object id ∉ e.1 := by
    intro e hl hid
    have halive := List.all_eq_true.mp (Bool.and_eq_true_iff.mp hl).1 _ hid
    rw [Key.alive, hdead] at halive
    cases halive
  refine ⟨hdead, ?_, fun e he => ?_, ?_⟩
  · rw [List.filter_filter]
    refine (Level.countLive_eq u.heap.alive u.store.root).trans (congrArg List.length ?_)
    refine List.filter_congr fun e _ => ?_
    cases hl : Level.living u.heap.alive e with
    | true => simp [hgone e hl]
    | false => rfl
  · change e ∈ (u.store.root.purged u.heap.alive).entries at he
    rw [Level.entries_purged] at he
    exact hgone e (List.mem_filter.mp he).2
  · change u.store.root.released u.heap.alive +
      (u.store.root.purged u.heap.alive).entries.length = _
    rw [Level.entries_purged]
    exact Level.released_eq u.heap.alive u.store.root

/-- A key that is reached neither from outside nor from what the store holds under other
paths than its own dies when the program lets go, and is released. -/
theorem Reachable.key_released {u : Use} (hu : u.Reachable) {outside : List Value}
    {id : ObjectId} (hfree : ¬ u.heap.Reached (outside ++ u.heldElsewhere id) id) :
    (u.dropped outside).Released id := by
  refine released_of_dead (Bool.eq_false_iff.mpr fun halive => hfree ?_)
  have hr := ((Heap.alive_collect hu.kept.sound _ id).mp halive).2
  obtain ⟨v, hv, hr⟩ := Heap.reached_iff.mp hr
  refine Heap.reached_iff.mpr ⟨v, List.mem_append.mpr ?_, hr⟩
  refine (List.mem_append.mp hv).imp_right fun hv => ?_
  obtain ⟨path, hs⟩ := Level.exists_stored_of_mem_strongValues hu.kept.distinct hv
  exact mem_heldElsewhere hu.kept.distinct hs fun hid => hu.apart hs hid hr

/-! ### Keys that the values of other keys refer to -/

/-- Two empty lists, and a list of the second one. -/
def threeLists : Heap :=
  ⟨#[some (.content (.items [])), some (.content (.items [])), some (.content (.items [.list 1]))]⟩

theorem proper_threeLists :
    threeLists.Proper (.list 0) ∧ threeLists.Proper (.list 1) ∧ threeLists.Proper (.list 2) :=
  ⟨Heap.proper_reference (o := .content (.items [])) rfl,
    Heap.proper_reference (o := .content (.items [])) rfl,
    Heap.proper_reference (o := .content (.items [.list 1])) rfl⟩

theorem sound_threeLists : threeLists.Sound := by
  intro id o ho v hv
  match id, ho with
  | 0, ho | 1, ho =>
    cases ho
    cases hv
  | 2, ho =>
    cases ho
    cases List.mem_singleton.mp hv
    refine ⟨proper_threeLists.2.1, fun c hc => ?_⟩
    cases hc
    decide

/-- In a strong store, the list of the second list stands under the first, and 1 under
the second. -/
def chained : Use where
  heap := threeLists
  store := ((⟨.strong, .nil⟩ : Store).set threeLists [.object 0] (.list 2)).set threeLists
    [.object 1] (.int 1)
  notes := [.put [.list 1] (.strong (.int 1)), .put [.list 0] (.strong (.list 2))]

theorem reachable_chained : chained.Reachable := by
  obtain ⟨hfirst, hsecond, hthird⟩ := proper_threeLists
  have hnew : Reachable ⟨threeLists, ⟨.strong, .nil⟩, []⟩ :=
    ⟨threeLists, sound_threeLists, .strong, .refl⟩
  have hone := hnew.step (.set [.list 0] _ (.list 2) (by simpa using hfirst) rfl hthird)
  exact hone.step
    (.set [.list 1] _ (.int 1) (by simpa using hsecond) rfl (Heap.proper_of_plain rfl))

/-- Once the program lets go of the first list, its entry is released. -/
theorem chained_first_released :
    chained.Reachable ∧ ¬ chained.heap.Reached ([] ++ chained.heldElsewhere 0) 0 ∧
      (chained.dropped []).Released 0 := by
  have hfree : ¬ chained.heap.Reached ([] ++ chained.heldElsewhere 0) 0 := by
    intro hr
    have := (Heap.marked_iff sound_threeLists _ 0).mpr ⟨hr, by decide⟩
    exact absurd this (by decide)
  exact ⟨reachable_chained, hfree, reachable_chained.key_released hfree⟩

/-- The second list is reached from nothing outside of the store, yet it is alive and
counted and nothing is released: the value of the first list, which is alive, refers to it. -/
theorem chained_keeps_key :
    chained.Reachable ∧ chained.store.retention = .strong ∧
      chained.store.get? chained.heap [.object 1] = some (.int 1) ∧
      ¬ chained.heap.Reached [.list 0] 1 ∧
      (chained.dropped [.list 0]).heap.alive 1 = true ∧
      (chained.dropped [.list 0]).store.count (chained.dropped [.list 0]).heap = 2 ∧
      (chained.dropped [.list 0]).store.released (chained.dropped [.list 0]).heap = 0 := by
  have hfree : ¬ chained.heap.Reached [.list 0] 1 := by
    intro hr
    have := (Heap.marked_iff sound_threeLists _ 1).mpr ⟨hr, by decide⟩
    exact absurd this (by decide)
  exact ⟨reachable_chained, rfl, by decide, hfree, by decide, by decide, by decide⟩

end OpenVariants.Store.Use

import Mathlib.Data.List.Nodup
import Mathlib.Data.Set.Card
import OpenVariants.Proofs.Heap
import OpenVariants.Proofs.Level

/-! The entries of a trie.

A trie without a key twice is the list of its entries: each path once, with what is
stored at its end (`mem_entries`, `nodup_paths`). Counting counts them or the living
ones among them, and a purge leaves just the living ones (`entries_purged`). -/
namespace OpenVariants

/-- A list without repetitions is as long as what is in it is many. -/
theorem encard_of_nodup {α : Type*} {l : List α} (hl : l.Nodup) : {a | a ∈ l}.encard = l.length := by
  classical
  rw [← List.toFinset_card_of_nodup hl, ← Set.encard_coe_eq_coe_finsetCard, List.coe_toFinset]

end OpenVariants

namespace OpenVariants.Store.Level

/-- Every path with what is stored at its end, dead or alive. -/
def entries : Level → List (List Key × Stored)
  | nil => []
  | cons key value next rest =>
    value.toList.map (fun s => ([key], s)) ++ next.entries.map (fun e => (key :: e.1, e.2)) ++
      rest.entries

/-! ### Paths and entries -/

theorem path_ne_nil {l : Level} {e : List Key × Stored} (he : e ∈ l.entries) : e.1 ≠ [] := by
  induction l with
  | nil => cases he
  | cons key value next rest _ ih =>
    simp only [entries, List.mem_append, List.mem_map] at he
    obtain (⟨s, _, rfl⟩ | ⟨e', _, rfl⟩) | he := he
    · simp
    · simp
    · exact ih he

/-- The entries of a trie, key by key. -/
theorem mem_entries_cons {l : Level} (hl : l.Distinct) (k : Key) (path : List Key) (s : Stored) :
    (k :: path, s) ∈ l.entries ↔
      ∃ e, l.under? k = some e ∧ (path = [] ∧ e.value = some s ∨ (path, s) ∈ e.next.entries) := by
  induction l with
  | nil => simp [entries, under?]
  | cons key value next rest _ ih =>
    obtain ⟨hkey, _, hrest⟩ := hl
    simp only [entries, List.mem_append, List.mem_map, ih hrest, under?]
    by_cases hk : key = k
    · subst hk
      have hvalue : (∃ a ∈ value.toList, ([key], a) = (key :: path, s)) ↔
          path = [] ∧ value = some s := by
        cases value with
        | none => simp
        | some a => simp [and_comm, eq_comm]
      have hnext : (∃ e ∈ next.entries, (key :: e.1, e.2) = (key :: path, s)) ↔
          (path, s) ∈ next.entries := by
        simp
      rw [hvalue, hnext, hkey]
      simp
    · simp [hk]

/-- The entries of a trie are what is stored in it. -/
theorem mem_entries {l : Level} (hl : l.Distinct) (path : List Key) (s : Stored) :
    (path, s) ∈ l.entries ↔ l.stored? path = some s := by
  induction path generalizing l with
  | nil =>
    refine ⟨fun h => absurd rfl (path_ne_nil h), fun h => ?_⟩
    rw [stored?_nil_path] at h
    cases h
  | cons k path ih =>
    rw [mem_entries_cons hl, stored?_cons, Option.bind_eq_some_iff]
    refine exists_congr fun e => and_congr_right fun he => ?_
    cases path with
    | nil =>
      have hnone : ([], s) ∉ e.next.entries := fun h => path_ne_nil h rfl
      simp [hnone]
    | cons k₂ path => simpa using ih (hl.next he)

/-- No path has two entries. -/
theorem nodup_paths {l : Level} (hl : l.Distinct) : (l.entries.map (·.1)).Nodup := by
  induction l with
  | nil => simp [entries]
  | cons key value next rest ihn ihr =>
    obtain ⟨hkey, hnext, hrest⟩ := hl
    have hbelow : (next.entries.map fun e => key :: e.1).Nodup := by
      have h := List.Nodup.map (fun p q h => (List.cons.inj h).2) (ihn hnext) (f := (key :: ·))
      rwa [List.map_map] at h
    simp only [entries, List.map_append, List.map_map, Function.comp_def, List.nodup_append]
    refine ⟨⟨?_, hbelow, ?_⟩, ihr hrest, ?_⟩
    · cases value <;> simp
    · intro p hp q hq
      obtain ⟨s, _, rfl⟩ := List.mem_map.mp hp
      obtain ⟨e, he, rfl⟩ := List.mem_map.mp hq
      simpa using (path_ne_nil he).symm
    · -- The paths of the rest begin with other keys.
      intro p hp q hq hpq
      obtain ⟨e, he, rfl⟩ := List.mem_map.mp hq
      have hhead : ∃ path, p = key :: path := by
        rcases List.mem_append.mp hp with hp | hp
        · obtain ⟨s, _, rfl⟩ := List.mem_map.mp hp
          exact ⟨[], rfl⟩
        · obtain ⟨e', _, rfl⟩ := List.mem_map.mp hp
          exact ⟨e'.1, rfl⟩
      obtain ⟨path, rfl⟩ := hhead
      have he' : (key :: path, e.2) ∈ rest.entries := by rwa [hpq]
      obtain ⟨e'', hunder, _⟩ := (mem_entries_cons hrest key path e.2).mp he'
      rw [hkey] at hunder
      cases hunder

/-- What is held strongly is what the entries hold strongly. -/
theorem strongValues_eq (l : Level) : l.strongValues = l.entries.filterMap (·.2.strong?) := by
  induction l with
  | nil => rfl
  | cons key value next rest ihn ihr =>
    simp only [strongValues, entries, List.filterMap_append, List.filterMap_map, ihn, ihr]
    cases value with
    | none => rfl
    | some s => cases h : s.strong? <;> simp [h]

theorem exists_stored_of_mem_strongValues {l : Level} (hl : l.Distinct) {v : Value}
    (h : v ∈ l.strongValues) : ∃ path, l.stored? path = some (.strong v) := by
  rw [strongValues_eq] at h
  obtain ⟨⟨path, s⟩, he, hs⟩ := List.mem_filterMap.mp h
  refine ⟨path, ?_⟩
  cases s with
  | strong u =>
    cases hs
    exact (mem_entries hl path _).mp he
  | weak u => cases hs

/-! ### Entries over time -/

/-- Whether an entry is living: its keys are and its value is. -/
def living (alive : ObjectId → Bool) (e : List Key × Stored) : Bool :=
  e.1.all (·.alive alive) && e.2.alive alive

/-- An entry is of its time if its objects were made by then. -/
def Made (h : Heap) (e : List Key × Stored) : Prop :=
  (∀ id, Key.object id ∈ e.1 → id < h.size) ∧ ∀ id, e.2.value.object? = some id → id < h.size

theorem Made.later {h h' : Heap} (hb : h.Before h') {e : List Key × Stored} (he : Made h e) :
    Made h' e :=
  ⟨fun id hid => Nat.lt_of_lt_of_le (he.1 id hid) hb.size,
    fun id hid => Nat.lt_of_lt_of_le (he.2 id hid) hb.size⟩

/-- What lives later lived then. -/
theorem Made.living {h h' : Heap} (hb : h.Before h') {e : List Key × Stored} (he : Made h e)
    (hl : Level.living h'.alive e = true) : Level.living h.alive e = true := by
  have hback : ∀ id, id < h.size → h'.alive id = true → h.alive id = true := by
    intro id hlt ha
    obtain ⟨o, ho⟩ := Heap.alive_iff.mp ha
    exact Heap.alive_iff.mpr ⟨o, hb.object id o hlt ho⟩
  unfold Level.living at hl ⊢
  rw [Bool.and_eq_true, List.all_eq_true] at hl ⊢
  refine ⟨fun k hk => ?_, ?_⟩
  · cases k with
    | object id => exact hback id (he.1 id hk) (hl.1 _ hk)
    | _ => rfl
  · obtain ⟨path, held⟩ := e
    cases held with
    | strong v => rfl
    | weak v =>
      have hv : h'.holds v = true := hl.2
      change h.holds v = true
      rw [Heap.holds_iff] at hv ⊢
      exact fun id hid => hback id (he.2 id hid) (hv id hid)

/-! ### Counting and purging -/

theorem countAll_eq (l : Level) : l.countAll = l.entries.length := by
  induction l with
  | nil => rfl
  | cons key value next rest ihn ihr => simp [countAll, entries, ihn, ihr, Nat.add_assoc]

variable (alive : ObjectId → Bool)

/-- The living entries of a level, key by key. -/
theorem filter_entries_cons (key : Key) (value : Option Stored) (next rest : Level) :
    (cons key value next rest).entries.filter (living alive) =
      (if key.alive alive then
        (value.filter (·.alive alive)).toList.map (fun s => ([key], s)) ++
          (next.entries.filter (living alive)).map (fun e => (key :: e.1, e.2))
      else []) ++ rest.entries.filter (living alive) := by
  have hbelow : (next.entries.map fun e => (key :: e.1, e.2)).filter (living alive) =
      if key.alive alive then
        (next.entries.filter (living alive)).map fun e => (key :: e.1, e.2)
      else [] := by
    have hliving : (living alive ∘ fun e : List Key × Stored => (key :: e.1, e.2)) =
        fun e => key.alive alive && living alive e := by
      funext e
      simp [living, Bool.and_assoc]
    rw [List.filter_map, hliving]
    by_cases hk : key.alive alive <;> simp [hk]
  have hhere : (value.toList.map fun s => ([key], s)).filter (living alive) =
      if key.alive alive then (value.filter (·.alive alive)).toList.map fun s => ([key], s)
      else [] := by
    cases value with
    | none => simp
    | some s =>
      by_cases hk : key.alive alive <;> by_cases hs : s.alive alive <;>
        simp [living, hk, hs, Option.filter]
  rw [entries, List.filter_append, List.filter_append, hhere, hbelow]
  split <;> simp

/-- Counting counts the living entries. -/
theorem countLive_eq (l : Level) :
    l.countLive alive = (l.entries.filter (living alive)).length := by
  induction l with
  | nil => rfl
  | cons key value next rest ihn ihr =>
    have hvalue : (value.filter (·.alive alive)).toList.length =
        if value.any (·.alive alive) then 1 else 0 := by
      cases value with
      | none => rfl
      | some s => by_cases hs : s.alive alive <;> simp [hs]
    rw [filter_entries_cons, countLive, ihn, ihr, List.length_append]
    split <;> simp [hvalue]

/-- A purge leaves the living entries. -/
theorem entries_purged (l : Level) :
    (l.purged alive).entries = l.entries.filter (living alive) := by
  induction l with
  | nil => rfl
  | cons key value next rest ihn ihr =>
    rw [filter_entries_cons, ← ihn, ← ihr, purged]
    by_cases hk : key.alive alive
    · simp only [hk, if_true]
      split
      · next hgone =>
        rw [Bool.and_eq_true_iff, isEmpty_eq_true] at hgone
        rw [Option.isNone_iff_eq_none.mp hgone.1, hgone.2]
        rfl
      · rfl
    · simp [hk]

/-- A purge releases the entries that are not living. -/
theorem released_eq (l : Level) :
    l.released alive + (l.entries.filter (living alive)).length = l.entries.length := by
  induction l with
  | nil => rfl
  | cons key value next rest ihn ihr =>
    have hall : (cons key value next rest).entries.length =
        value.toList.length + next.entries.length + rest.entries.length := by
      simp [entries, Nat.add_assoc]
    have hvalue : (if value.any (!·.alive alive) then 1 else 0) +
        (value.filter (·.alive alive)).toList.length = value.toList.length := by
      cases value with
      | none => rfl
      | some s => by_cases hs : s.alive alive <;> simp [hs]
    rw [filter_entries_cons, hall, released, List.length_append]
    by_cases hk : key.alive alive
    · simp only [hk, if_true, List.length_append, List.length_map]
      omega
    · simp only [hk, countAll_eq, Bool.false_eq_true, if_false, List.length_nil]
      omega

end OpenVariants.Store.Level

import OpenVariants.Proofs.Use

/-! Stores as finite maps.

Whatever a store went through, it is read like a finite map from paths to values, in
which what is held weakly may die (`Use.FiniteMap`): under keys in hand stands what the
last effective write on the same keys left there, as long as it is living, and counting
counts the paths where something stands. -/
namespace OpenVariants.Store

/-- What the last effective write on the same keys left there. Later notes come first. -/
def lastWrite (keys : List Value) : List Note → Option Stored
  | [] => none
  | .put keys' held :: notes =>
    if Value.AllSame keys' keys then some held else lastWrite keys notes
  | .deleted keys' :: notes => if Value.AllSame keys' keys then none else lastWrite keys notes
  | .cleared :: _ => none

/-- Keys that came to hand have the path of keys in hand exactly when they are the same. -/
theorem allSame_iff_path {h : Heap} {noted keys : List Value} (hnoted : ∀ k ∈ noted, h.Known k)
    (hkeys : ∀ k ∈ keys, h.Proper k) :
    Value.AllSame noted keys ↔ noted.map Key.ofValue = keys.map Key.ofValue :=
  Heap.allSame_iff_of_named fun v hv w hw _ => (hnoted v hv).eq_of_object? (hkeys w hw)

theorem lastWrite_eq_noted {h : Heap} {keys : List Value} (hkeys : ∀ k ∈ keys, h.Proper k)
    {notes : List Note} (hnotes : ∀ n ∈ notes, n.Known h) :
    lastWrite keys notes = noted (keys.map Key.ofValue) notes := by
  induction notes with
  | nil => rfl
  | cons n notes ih =>
    obtain ⟨hn, hrest⟩ := List.forall_mem_cons.mp hnotes
    cases n with
    | put keys' held => simp only [lastWrite, noted, allSame_iff_path hn.1 hkeys, ih hrest]
    | deleted keys' => simp only [lastWrite, noted, allSame_iff_path hn hkeys, ih hrest]
    | cleared => rfl

namespace Use

/-- The store is read like a finite map whose values may die. -/
structure FiniteMap (u : Use) : Prop where
  /-- Under keys in hand stands what the last effective write on the same keys put
  there, if it is held strongly or still alive. -/
  get : ∀ keys path, (∀ k ∈ keys, u.heap.Proper k) → Key.path keys = .ok path → ∀ v,
    u.store.get? u.heap path = some v ↔
      ∃ held, lastWrite keys u.notes = some held ∧ held.value = v ∧
        held.alive u.heap.alive = true
  has : ∀ path, u.store.has u.heap path = (u.store.get? u.heap path).isSome
  /-- Deleting tells whether something was there. -/
  delete : ∀ path, (u.store.delete u.heap path).1 = (u.store.get? u.heap path).isSome
  /-- No other path is affected, now or later. -/
  deleted : ∀ path (h : Heap) q,
    (u.store.delete u.heap path).2.get? h q = if q = path then none else u.store.get? h q
  /-- What is found is given, whatever would have been made; what is made is put there
  as by a write. -/
  intern : ∀ keys path v, Key.path keys = .ok path →
    u.store.intern u.heap path v =
      match u.store.get? u.heap path with
      | some found => (some found, u.store)
      | none => (none, u.store.set u.heap path v)
  /-- Counting counts the paths of living keys where something stands. -/
  count : ∃ paths : List (List Key), paths.Nodup ∧
    (∀ path, path ∈ paths ↔
      path.all (·.alive u.heap.alive) = true ∧ (u.store.get? u.heap path).isSome = true) ∧
    u.store.count u.heap = paths.length

theorem get?_eq_some {h : Heap} {s : Store} {path : List Key} {v : Value} :
    s.get? h path = some v ↔
      ∃ held, s.root.stored? path = some held ∧ held.value = v ∧ held.alive h.alive = true := by
  unfold get? Level.get?
  rw [Option.bind_eq_some_iff]
  refine exists_congr fun held => and_congr_right fun _ => ?_
  unfold Stored.load
  split
  · next hl => simp [hl]
  · next hl => simp [hl]

theorem isSome_get? (h : Heap) (s : Store) (path : List Key) :
    (s.get? h path).isSome = (s.root.stored? path).any (·.alive h.alive) := by
  unfold get? Level.get?
  cases s.root.stored? path with
  | none => rfl
  | some held =>
    simp only [Option.bind_some, Option.any_some, Stored.load]
    split
    · next hl => rw [hl]; rfl
    · next hl => rw [Bool.not_eq_true] at hl; rw [hl]; rfl

/-- The paths of the living entries are those where something stands. -/
theorem mem_living_paths {h : Heap} {s : Store} (hd : s.root.Distinct) (path : List Key) :
    path ∈ (s.root.entries.filter (Level.living h.alive)).map (·.1) ↔
      path.all (·.alive h.alive) = true ∧ (s.get? h path).isSome = true := by
  rw [isSome_get?, List.mem_map]
  constructor
  · rintro ⟨⟨_, held⟩, he, rfl⟩
    obtain ⟨he, hl⟩ := List.mem_filter.mp he
    rw [(Level.mem_entries hd _ held).mp he]
    exact Bool.and_eq_true_iff.mp hl
  · rintro ⟨hpath, hany⟩
    obtain ⟨held, hs, hheld⟩ := (Option.any_eq_true _ _).mp hany
    refine ⟨(path, held), List.mem_filter.mpr ⟨(Level.mem_entries hd path held).mpr hs, ?_⟩, rfl⟩
    exact Bool.and_eq_true_iff.mpr ⟨hpath, hheld⟩

/-- Keys in hand have a living path. -/
theorem all_alive_path {h : Heap} {keys : List Value} (hkeys : ∀ k ∈ keys, h.Proper k) :
    (keys.map Key.ofValue).all (·.alive h.alive) = true := by
  rw [List.all_map, List.all_eq_true]
  exact fun k hk => (hkeys k hk).key_alive

theorem Kept.get {u : Use} (hk : u.Kept) {keys : List Value} {path : List Key}
    (hkeys : ∀ k ∈ keys, u.heap.Proper k) (hpath : Key.path keys = .ok path) (v : Value) :
    u.store.get? u.heap path = some v ↔
      ∃ held, lastWrite keys u.notes = some held ∧ held.value = v ∧
        held.alive u.heap.alive = true := by
  obtain ⟨rfl, _⟩ := Key.path_ok hpath
  rw [get?_eq_some, lastWrite_eq_noted hkeys hk.known]
  rcases hk.reads (keys.map Key.ofValue) with hr | ⟨hnone, held, hn, hdead⟩
  · rw [hr]
  · -- What the notes say died, and keys in hand are living, so it is the value that died.
    rw [Level.living, all_alive_path hkeys, Bool.true_and] at hdead
    simp [hnone, hn, hdead]

theorem Reachable.finite_map {u : Use} (hu : u.Reachable) : u.FiniteMap where
  get _ _ hkeys hpath v := hu.kept.get hkeys hpath v
  has _ := rfl
  delete path := by rw [isSome_get?]; rfl
  deleted path h q := by
    unfold get? Level.get?
    rw [stored?_delete]
    split <;> rfl
  intern keys path v hpath := intern_eq u.heap path v u.store (Key.path_ok hpath).2
  count := by
    have hd := hu.kept.distinct
    refine ⟨(u.store.root.entries.filter (Level.living u.heap.alive)).map (·.1), ?_,
      mem_living_paths hd, ?_⟩
    · exact (Level.nodup_paths hd).sublist (List.filter_sublist.map _)
    · rw [List.length_map]
      exact Level.countLive_eq u.heap.alive u.store.root

/-- Two empty lists. -/
def twoLists : Heap := ⟨#[some (.content (.items [])), some (.content (.items []))]⟩

theorem sound_twoLists : twoLists.Sound := by
  have hcontent : ∀ (id : ObjectId) o, twoLists.object? id = some o → o.children = [] := by
    intro id o ho
    match id, ho with
    | 0, ho | 1, ho =>
      cases ho
      rfl
  intro id o ho v hv
  rw [hcontent id o ho] at hv
  cases hv

theorem proper_twoLists : twoLists.Proper (.list 0) ∧ twoLists.Proper (.list 1) :=
  ⟨Heap.proper_reference (o := .content (.items [])) rfl,
    Heap.proper_reference (o := .content (.items [])) rfl⟩

/-- In a weak store, 1 is put under the path of a list and another list under that path
with one more key; then the second list is dropped. -/
def prefixKept : Use :=
  let store := (⟨.weak, .nil⟩ : Store).set twoLists [.object 0] (.int 1)
  dropped [.list 0]
    { heap := twoLists
      store := store.set twoLists [.object 0, .int 2] (.list 1)
      notes := [.put [.list 0, .int 2] (.weak (.list 1)), .put [.list 0] (.weak (.int 1))] }

theorem reachable_prefixKept : prefixKept.Reachable := by
  obtain ⟨hfirst, hsecond⟩ := proper_twoLists
  have hplain : ∀ i, twoLists.Proper (.int i) := fun _ => Heap.proper_of_plain rfl
  have hnew : Reachable ⟨twoLists, ⟨.weak, .nil⟩, []⟩ := ⟨twoLists, sound_twoLists, .weak, .refl⟩
  have hone := hnew.step (.set [.list 0] _ (.int 1) (by simpa using hfirst) rfl (hplain 1))
  have htwo := hone.step
    (.set [.list 0, .int 2] _ (.list 1) (by simpa using ⟨hfirst, hplain 2⟩) rfl hsecond)
  exact htwo.dropped (by simpa using hfirst)

/-- The path is still there and its extension is not. -/
theorem prefixKept_finite_map :
    prefixKept.Reachable ∧ prefixKept.FiniteMap ∧
      prefixKept.store.get? prefixKept.heap [.object 0] = some (.int 1) ∧
      prefixKept.store.get? prefixKept.heap [.object 0, .int 2] = none ∧
      prefixKept.store.count prefixKept.heap = 1 :=
  ⟨reachable_prefixKept, reachable_prefixKept.finite_map, by decide, by decide, by decide⟩

end Use

end OpenVariants.Store

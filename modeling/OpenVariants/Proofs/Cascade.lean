import OpenVariants.Proofs.Purging
import OpenVariants.Proofs.Retention

/-! Purges that make other entries die.

A strong store owns values, so releasing an entry may let the last owner of another
entry's key or value go. A purge passes over every entry once: one that dies after it was
passed stays until a later call. Which ones do is a matter of the order in which the maps
give the entries, so a pass is taken here in any order (`passed`, `Call`); the purge of
the program, which judges all entries before anything is let go, is the one that meets
the living entries first (`call_purging`).

In every order a call releases all that was dead when it began, and nothing that is alive
when it ends. Another call changes nothing exactly when no entry that was left died of
the first one (`Call.again_iff`), which is always so where values are held weakly; and
after as many calls as there are entries nothing is left to release, the same entries
staying in every order (`Calls.unique`). -/
namespace OpenVariants.Store

namespace Level

/-! ### Some of the entries -/

/-- A trie with the entries that stay; slots that are left with nothing go. -/
def keep : (List Key × Stored → Bool) → Level → Level
  | _, nil => nil
  | stays, cons key value next rest =>
    let rest := rest.keep stays
    let value := value.filter fun s => stays ([key], s)
    let next := next.keep fun e => stays (key :: e.1, e.2)
    if value.isNone && next.isEmpty then rest else cons key value next rest

theorem entries_keep (stays : List Key × Stored → Bool) (l : Level) :
    (l.keep stays).entries = l.entries.filter stays := by
  induction l generalizing stays with
  | nil => rfl
  | cons key value next rest ihn ihr =>
    have hhere : (value.filter fun s => stays ([key], s)).toList.map (fun s => ([key], s)) =
        (value.toList.map fun s => ([key], s)).filter stays := by
      cases value with
      | none => rfl
      | some s => by_cases hs : stays ([key], s) <;> simp [Option.filter, hs]
    have hbelow : (next.entries.map fun e => (key :: e.1, e.2)).filter stays =
        (next.keep fun e => stays (key :: e.1, e.2)).entries.map fun e => (key :: e.1, e.2) := by
      rw [ihn, List.filter_map]
      rfl
    rw [entries, List.filter_append, List.filter_append, ← hhere, hbelow, ← ihr, keep]
    split
    · next hgone =>
      rw [Bool.and_eq_true_iff, isEmpty_eq_true] at hgone
      rw [Option.isNone_iff_eq_none.mp hgone.1, hgone.2]
      rfl
    · rfl

/-- Only what is said of the entries that are there matters. -/
theorem keep_congr {stays stays' : List Key × Stored → Bool} {l : Level}
    (h : ∀ e ∈ l.entries, stays e = stays' e) : l.keep stays = l.keep stays' := by
  induction l generalizing stays stays' with
  | nil => rfl
  | cons key value next rest ihn ihr =>
    have hvalue : (value.filter fun s => stays ([key], s)) =
        value.filter fun s => stays' ([key], s) := by
      cases value with
      | none => rfl
      | some s => simp only [Option.filter, h ([key], s) (by simp [entries])]
    have hbelow : ∀ e ∈ next.entries, stays (key :: e.1, e.2) = stays' (key :: e.1, e.2) :=
      fun e he => h (key :: e.1, e.2) (by simp [entries, he])
    have hnext := ihn hbelow
    have hrest := ihr fun e he => h e (by simp [entries, he])
    rw [keep, keep, hvalue, hnext, hrest]

theorem keep_keep (stays stays' : List Key × Stored → Bool) (l : Level) :
    (l.keep stays).keep stays' = l.keep fun e => stays e && stays' e := by
  induction l generalizing stays stays' with
  | nil => rfl
  | cons key value next rest ihn ihr =>
    have hvalue : (value.filter fun s => stays ([key], s)).filter (fun s => stays' ([key], s)) =
        value.filter fun s => stays ([key], s) && stays' ([key], s) := by
      cases value with
      | none => rfl
      | some s => by_cases hs : stays ([key], s) <;> simp [Option.filter, hs]
    simp only [keep]
    rw [← hvalue, ← ihn, ← ihr]
    split
    · next hgone =>
      rw [Bool.and_eq_true_iff, isEmpty_eq_true] at hgone
      rw [Option.isNone_iff_eq_none.mp hgone.1, hgone.2]
      simp [keep, isEmpty]
    · rw [keep]

theorem keep_none (l : Level) : l.keep (fun _ => false) = nil := by
  induction l with
  | nil => rfl
  | cons key value next rest ihn ihr =>
    rw [keep, ihn, ihr]
    cases value <;> rfl

/-- A purge keeps the living entries. -/
theorem purged_eq_keep (alive : ObjectId → Bool) (l : Level) :
    l.purged alive = l.keep (living alive) := by
  induction l with
  | nil => rfl
  | cons key value next rest ihn ihr =>
    rw [purged, keep]
    by_cases hk : key.alive alive
    · have hvalue : (fun s => living alive ([key], s)) = (·.alive alive) := by
        funext s
        simp [living, hk]
      have hnext : (fun e : List Key × Stored => living alive (key :: e.1, e.2)) =
          living alive := by
        funext e
        simp [living, hk]
      simp only [hk, if_true, hvalue, hnext, ihn, ihr]
    · have hvalue : (fun s => living alive ([key], s)) = fun _ => false := by
        funext s
        simp [living, hk]
      have hnext : (fun e : List Key × Stored => living alive (key :: e.1, e.2)) =
          fun _ => false := by
        funext e
        simp [living, hk]
      have hgone : (value.filter fun _ => false) = none := by cases value <;> rfl
      simp only [hk, Bool.false_eq_true, if_false, hvalue, hnext, keep_none, hgone, ihr]
      rfl

/-- More entries hold more strongly. -/
theorem strongValues_mono {l l' : Level} (h : ∀ e ∈ l.entries, e ∈ l'.entries) :
    ∀ v ∈ l.strongValues, v ∈ l'.strongValues := by
  intro v hv
  rw [strongValues_eq] at hv ⊢
  obtain ⟨e, he, hv⟩ := List.mem_filterMap.mp hv
  exact List.mem_filterMap.mpr ⟨e, h e he, hv⟩

/-- Where more is alive, more entries are living. -/
theorem living_mono {alive alive' : ObjectId → Bool}
    (h : ∀ id, alive id = true → alive' id = true) {e : List Key × Stored}
    (he : living alive e = true) : living alive' e = true := by
  unfold living at he ⊢
  rw [Bool.and_eq_true, List.all_eq_true] at he ⊢
  refine ⟨fun k hk => ?_, ?_⟩
  · have halive := he.1 k hk
    cases k with
    | object id => exact h id halive
    | _ => rfl
  · obtain ⟨path, held⟩ := e
    cases held with
    | strong v => rfl
    | weak v =>
      have halive : v.object?.all alive = true := he.2
      change v.object?.all alive' = true
      cases hv : v.object? with
      | none => rfl
      | some id =>
        rw [hv] at halive
        exact h id halive

end Level

namespace Use

/-! ### Passes -/

/-- What the store has. -/
def entries (u : Use) : List (List Key × Stored) := u.store.root.entries

def living (u : Use) (e : List Key × Stored) : Bool := Level.living u.heap.alive e

/-- A use with some of the entries; slots that are left with nothing go. -/
def thinned (stays : List Key × Stored → Bool) (u : Use) : Use :=
  {u with store := {u.store with root := u.store.root.keep stays}}

/-- A purge: what is not living is released, then what nothing holds any more dies. -/
def purging (outside : List Value) (u : Use) : Use :=
  dropped outside {u with store := u.store.purged u.heap}

/-- An entry is met, after some were released: a living one stays, another one is
released, and what was held by it alone dies at once. -/
def look (outside : List Value) (c : Nat × Use) (e : List Key × Stored) : Nat × Use :=
  if c.2.living e then c
  else (c.1 + 1, (c.2.thinned fun e' => e'.1 ≠ e.1).dropped outside)

/-- The entries met in some order, with the number of those released. -/
def passed (outside : List Value) (order : List (List Key × Stored)) (u : Use) : Nat × Use :=
  order.foldl (look outside) (0, u.thinned fun _ => true)

/-- What a call of purge may come to, the number it returns included: all entries are
met, in some order. -/
def Call (outside : List Value) (u : Use) (n : Nat) (u' : Use) : Prop :=
  ∃ order : List (List Key × Stored), order.Perm u.entries ∧ u.passed outside order = (n, u')

/-- A number of calls, one after the other. -/
def Calls (outside : List Value) : Nat → Use → Use → Prop
  | 0, u, u' => u' = u
  | k + 1, u, u' => ∃ n v, u.Call outside n v ∧ Calls outside k v u'

/-! ### What is left -/

/-- A use in which all is dead that is held neither outside nor by the store. -/
structure Settled (outside : List Value) (u : Use) : Prop where
  sound : u.heap.Sound
  nodup : (u.entries.map (·.1)).Nodup
  heap : u.heap.collect (outside ++ u.store.root.strongValues) = u.heap

/-- What a use can come to by losing entries. -/
def Left (outside : List Value) (u v : Use) : Prop :=
  ∃ stays, v = (u.thinned stays).dropped outside

theorem Reachable.settled {u : Use} (hu : u.Reachable) {outside : List Value}
    (h : u.dropped outside = u) : u.Settled outside :=
  ⟨hu.kept.sound, Level.nodup_paths hu.kept.distinct, congrArg Use.heap h⟩

variable {outside : List Value} {u v w : Use}

theorem entries_thinned (stays : List Key × Stored → Bool) (u : Use) :
    (u.thinned stays).entries = u.entries.filter stays :=
  Level.entries_keep stays u.store.root

theorem entries_thinned_true (u : Use) : (u.thinned fun _ => true).entries = u.entries := by
  rw [entries_thinned, List.filter_true]

/-- Losing some entries and then others is losing them all. -/
theorem dropped_thinned (hs : u.heap.Sound) (stays stays' : List Key × Stored → Bool) :
    (((u.thinned stays).dropped outside).thinned stays').dropped outside =
      (u.thinned fun e => stays e && stays' e).dropped outside := by
  have hsub : ∀ x ∈ outside ++ ((u.store.root.keep stays).keep stays').strongValues,
      x ∈ outside ++ (u.store.root.keep stays).strongValues := by
    intro x hx
    refine List.mem_append.mpr ((List.mem_append.mp hx).imp_right ?_)
    refine Level.strongValues_mono (fun e he => ?_) x
    rw [Level.entries_keep] at he
    exact (List.mem_filter.mp he).1
  have hheap := Heap.collect_collect_of_subset hs hsub
  rw [Level.keep_keep] at hheap
  simp only [dropped, thinned, Level.keep_keep, hheap]

theorem Settled.left (hu : u.Settled outside) : u.Left outside (u.thinned fun _ => true) := by
  have hvalues : (u.store.root.keep fun _ => true).strongValues = u.store.root.strongValues := by
    rw [Level.strongValues_eq, Level.entries_keep, List.filter_true, Level.strongValues_eq]
  refine ⟨fun _ => true, ?_⟩
  simp only [dropped, thinned, hvalues, hu.heap]

namespace Left

theorem heap (hv : u.Left outside v) :
    v.heap = u.heap.collect (outside ++ v.store.root.strongValues) := by
  obtain ⟨stays, rfl⟩ := hv
  rfl

theorem entries (hv : u.Left outside v) : ∃ stays, v.entries = u.entries.filter stays := by
  obtain ⟨stays, rfl⟩ := hv
  exact ⟨stays, entries_thinned stays u⟩

theorem mem (hv : u.Left outside v) {e : List Key × Stored} (he : e ∈ v.entries) :
    e ∈ u.entries := by
  obtain ⟨stays, hstays⟩ := hv.entries
  rw [hstays] at he
  exact (List.mem_filter.mp he).1

theorem trans (hs : u.heap.Sound) (hv : u.Left outside v) (hw : v.Left outside w) :
    u.Left outside w := by
  obtain ⟨stays, rfl⟩ := hv
  obtain ⟨stays', rfl⟩ := hw
  exact ⟨_, dropped_thinned hs stays stays'⟩

/-- No slots are left with nothing. -/
theorem thinned_true (hv : u.Left outside v) : (v.thinned fun _ => true) = v := by
  obtain ⟨stays, rfl⟩ := hv
  simp only [thinned, dropped, Level.keep_keep, Bool.and_true]

theorem of_thinned (hv : u.Left outside v) : (u.thinned fun _ => true).Left outside v := by
  obtain ⟨stays, rfl⟩ := hv
  refine ⟨stays, ?_⟩
  simp only [thinned, Level.keep_keep, Bool.true_and]

theorem settled (hu : u.Settled outside) (hv : u.Left outside v) : v.Settled outside where
  sound := by
    rw [hv.heap]
    exact hu.sound.collect _
  nodup := by
    obtain ⟨stays, hstays⟩ := hv.entries
    rw [hstays]
    exact (List.filter_sublist.map _).nodup hu.nodup
  heap := by
    rw [hv.heap]
    exact Heap.collect_collect hu.sound _

/-- What the living entries of fewer need is there with more of them. -/
theorem living (hs : u.heap.Sound) (hv : u.Left outside v) (hw : u.Left outside w)
    (hsub : ∀ e ∈ v.entries, e ∈ w.entries) {e : List Key × Stored} (he : v.living e = true) :
    w.living e = true := by
  refine Level.living_mono (fun id halive => ?_) he
  rw [hv.heap, Heap.alive_collect hs] at halive
  rw [hw.heap, Heap.alive_collect hs]
  refine ⟨halive.1, halive.2.mono fun x hx => ?_⟩
  exact List.mem_append.mpr ((List.mem_append.mp hx).imp_right (Level.strongValues_mono hsub x))

/-- What is left is known by its entries. -/
theorem eq_of_entries (hv : u.Left outside v) (hw : u.Left outside w)
    (h : ∀ e, e ∈ v.entries ↔ e ∈ w.entries) : v = w := by
  obtain ⟨stays, rfl⟩ := hv
  obtain ⟨stays', rfl⟩ := hw
  have hkeep : u.store.root.keep stays = u.store.root.keep stays' := by
    refine Level.keep_congr fun e he => Bool.eq_iff_iff.mpr ?_
    have hiff := h e
    change e ∈ (u.thinned stays).entries ↔ e ∈ (u.thinned stays').entries at hiff
    rw [entries_thinned, entries_thinned, List.mem_filter, List.mem_filter] at hiff
    exact (and_congr_right_iff.mp hiff) he
  simp only [thinned, hkeep]

end Left

/-! ### One entry -/

theorem look_living {c : Nat × Use} {e : List Key × Stored} (he : c.2.living e = true) :
    look outside c e = c :=
  if_pos he

theorem look_dead {c : Nat × Use} {e : List Key × Stored} (he : c.2.living e = false) :
    look outside c e = (c.1 + 1, (c.2.thinned fun e' => e'.1 ≠ e.1).dropped outside) := by
  rw [look, he]
  rfl

/-- A release takes its entry away, and no other. -/
theorem mem_look_dead {c : Nat × Use} {e : List Key × Stored} (he : c.2.living e = false)
    (e' : List Key × Stored) :
    e' ∈ (look outside c e).2.entries ↔ e' ∈ c.2.entries ∧ e'.1 ≠ e.1 := by
  rw [look_dead he]
  change e' ∈ (c.2.thinned _).entries ↔ _
  rw [entries_thinned, List.mem_filter, decide_eq_true_iff]

theorem Left.look (hs : u.heap.Sound) {c : Nat × Use} (hc : u.Left outside c.2)
    (e : List Key × Stored) : u.Left outside (Use.look outside c e).2 := by
  cases he : c.2.living e with
  | true => rwa [look_living he]
  | false =>
    rw [look_dead he]
    exact hc.trans hs ⟨_, rfl⟩

/-- Taking one path away leaves one entry less. -/
theorem length_filter_path {l : List (List Key × Stored)} (hl : (l.map (·.1)).Nodup)
    {e : List Key × Stored} (he : e ∈ l) :
    (l.filter fun e' => e'.1 ≠ e.1).length + 1 = l.length := by
  have hpaths : (l.filter fun e' => e'.1 ≠ e.1).map (·.1) = (l.map (·.1)).erase e.1 := by
    rw [hl.erase_eq_filter, List.filter_map]
    congr 1
    refine List.filter_congr fun e' _ => ?_
    simp [bne, beq_eq_decide]
  have hmem : e.1 ∈ l.map (·.1) := List.mem_map_of_mem he
  have hlength := List.length_erase_of_mem hmem
  rw [← hpaths, List.length_map, List.length_map] at hlength
  have := List.length_pos_of_mem he
  omega

/-! ### A pass -/

/-- In the course of a pass, with the entries that are still to meet and what it came to. -/
structure Partway (outside : List Value) (u : Use) (rest : List (List Key × Stored))
    (c : Nat × Use) : Prop where
  left : u.Left outside c.2
  waits : ∀ e ∈ u.entries, e ∈ rest → e ∈ c.2.entries
  count : c.1 + c.2.entries.length = u.entries.length
  /-- What is released is dead. -/
  dead : ∀ e ∈ u.entries, e ∉ c.2.entries → c.2.living e = false
  /-- What was met and stays was living at first. -/
  live : ∀ e ∈ c.2.entries, e ∉ rest → u.living e = true

theorem partway_start (hu : u.Settled outside) {order : List (List Key × Stored)}
    (horder : order.Perm u.entries) : Partway outside u order (0, u.thinned fun _ => true) where
  left := hu.left
  waits e he _ := by rwa [entries_thinned_true]
  count := by rw [entries_thinned_true, Nat.zero_add]
  dead e he hgone := by
    rw [entries_thinned_true] at hgone
    exact absurd he hgone
  live e he hmet := by
    rw [entries_thinned_true] at he
    exact absurd (horder.mem_iff.mpr he) hmet

/-- An entry of a path is the only one. -/
theorem Settled.eq_of_path (hu : u.Settled outside) {e e' : List Key × Stored}
    (he : e ∈ u.entries) (he' : e' ∈ u.entries) (h : e'.1 = e.1) : e' = e :=
  List.inj_on_of_nodup_map hu.nodup he' he h

theorem Partway.look (hu : u.Settled outside) {e : List Key × Stored}
    {rest : List (List Key × Stored)} {c : Nat × Use} (hc : Partway outside u (e :: rest) c)
    (he : e ∈ u.entries) (hnew : e ∉ rest) : Partway outside u rest (Use.look outside c e) := by
  cases hl : c.2.living e with
  | true =>
    rw [look_living hl]
    refine ⟨hc.left, fun e' he' hr => hc.waits e' he' (List.mem_cons_of_mem e hr), hc.count,
      hc.dead, fun e' he' hr => ?_⟩
    by_cases heq : e' = e
    · rw [heq]
      refine hc.left.living hu.sound hu.left (fun e' he' => ?_) hl
      rw [entries_thinned_true]
      exact hc.left.mem he'
    · exact hc.live e' he' fun hr' => (List.mem_cons.mp hr').elim heq hr
  | false =>
    have hleft := hc.left.look hu.sound e
    have hmem (e' : List Key × Stored) :
        e' ∈ (Use.look outside c e).2.entries ↔ e' ∈ c.2.entries ∧ e'.1 ≠ e.1 := mem_look_dead hl e'
    have hpath : ∀ e' ∈ u.entries, e' ≠ e → e'.1 ≠ e.1 := fun e' he' hne hpath =>
      hne (hu.eq_of_path he he' hpath)
    refine ⟨hleft, fun e' he' hr => ?_, ?_, fun e' he' hgone => ?_, fun e' he' hr => ?_⟩
    · refine (hmem e').mpr ⟨hc.waits e' he' (List.mem_cons_of_mem e hr), hpath e' he' ?_⟩
      rintro rfl
      exact hnew hr
    · have hlength := length_filter_path (hc.left.settled hu).nodup
        (hc.waits e he List.mem_cons_self)
      have hcount := hc.count
      rw [look_dead hl]
      change c.1 + 1 + (c.2.thinned _).entries.length = _
      rw [entries_thinned]
      omega
    · have hback : (Use.look outside c e).2.living e' = true → c.2.living e' = true :=
        hleft.living hu.sound hc.left fun e'' he'' => ((hmem e'').mp he'').1
      refine Bool.eq_false_iff.mpr fun h => ?_
      have hliving := hback h
      by_cases hin : e' ∈ c.2.entries
      · have hsame : e'.1 = e.1 := by
          by_contra hne
          exact hgone ((hmem e').mpr ⟨hin, hne⟩)
        rw [hu.eq_of_path he he' hsame, hl] at hliving
        cases hliving
      · rw [hc.dead e' he' hin] at hliving
        cases hliving
    · obtain ⟨hin, hne⟩ := (hmem e').mp he'
      refine hc.live e' hin fun hr' => ?_
      rcases List.mem_cons.mp hr' with rfl | hr'
      · exact hne rfl
      · exact hr hr'

theorem Partway.pass (hu : u.Settled outside) {rest : List (List Key × Stored)}
    {c : Nat × Use} (hc : Partway outside u rest c) (hnodup : rest.Nodup)
    (hrest : ∀ e ∈ rest, e ∈ u.entries) :
    Partway outside u [] (rest.foldl (Use.look outside) c) := by
  induction rest generalizing c with
  | nil => exact hc
  | cons e rest ih =>
    obtain ⟨hnew, hnodup⟩ := List.nodup_cons.mp hnodup
    obtain ⟨he, hrest⟩ := List.forall_mem_cons.mp hrest
    exact ih (hc.look hu he hnew) hnodup hrest

theorem Call.partway (hu : u.Settled outside) {n : Nat} (h : u.Call outside n v) :
    Partway outside u [] (n, v) := by
  obtain ⟨order, horder, hpass⟩ := h
  have hnodup : order.Nodup := horder.nodup_iff.mpr (List.Nodup.of_map _ hu.nodup)
  have := (partway_start hu horder).pass hu hnodup fun e he => horder.mem_iff.mp he
  rwa [← hpass]

theorem Call.left (hu : u.Settled outside) {n : Nat} (h : u.Call outside n v) :
    u.Left outside v :=
  (h.partway hu).left

/-! ### One call -/

/-- What a call did. -/
structure Called (u v : Use) (n : Nat) : Prop where
  kept : ∀ e ∈ v.entries, e ∈ u.entries
  count : n + v.entries.length = u.entries.length
  /-- What was dead is released. -/
  released : ∀ e ∈ u.entries, u.living e = false → e ∉ v.entries
  /-- What is released is dead. -/
  dead : ∀ e ∈ u.entries, e ∉ v.entries → v.living e = false

theorem Call.called (hu : u.Settled outside) {n : Nat} (h : u.Call outside n v) :
    Called u v n where
  kept _ he := (h.partway hu).left.mem he
  count := (h.partway hu).count
  released e _ hdead he := by
    have hl := (h.partway hu).live e he List.not_mem_nil
    rw [hdead] at hl
    cases hl
  dead := (h.partway hu).dead

/-- Where all entries are living, a pass releases nothing. -/
theorem foldl_look_living {order : List (List Key × Stored)} {c : Nat × Use}
    (h : ∀ e ∈ order, c.2.living e = true) : order.foldl (look outside) c = c := by
  induction order with
  | nil => rfl
  | cons e order ih =>
    obtain ⟨he, horder⟩ := List.forall_mem_cons.mp h
    rw [List.foldl_cons, look_living he]
    exact ih horder

theorem Call.of_living {n : Nat} (h : v.Call outside n w) (hslots : (v.thinned fun _ => true) = v)
    (hl : ∀ e ∈ v.entries, v.living e = true) : n = 0 ∧ w = v := by
  obtain ⟨order, horder, hpass⟩ := h
  have hkept : order.foldl (look outside) (0, v) = (0, v) :=
    foldl_look_living fun e he => hl e (horder.mem_iff.mp he)
  rw [passed, hslots, hkept] at hpass
  exact ⟨(congrArg Prod.fst hpass).symm, (congrArg Prod.snd hpass).symm⟩

/-- Another call finds nothing exactly where no entry that was left has died. -/
theorem Call.again_iff (hu : u.Settled outside) {n m : Nat} (hfirst : u.Call outside n v)
    (hsecond : v.Call outside m w) :
    m = 0 ∧ w = v ↔ ∀ e ∈ v.entries, v.living e = true := by
  have hleft := hfirst.left hu
  refine ⟨?_, hsecond.of_living hleft.thinned_true⟩
  rintro ⟨-, rfl⟩ e he
  by_contra hdead
  exact (hsecond.called (hleft.settled hu)).released e he (Bool.eq_false_iff.mpr hdead) he

/-! ### The purge of the program -/

/-- What a pass does not meet any more stays. -/
theorem mem_foldl_look {rest : List (List Key × Stored)} {c : Nat × Use}
    {e : List Key × Stored} (he : e ∈ c.2.entries) (hrest : ∀ e' ∈ rest, e.1 ≠ e'.1) :
    e ∈ (rest.foldl (look outside) c).2.entries := by
  induction rest generalizing c with
  | nil => exact he
  | cons e' rest ih =>
    obtain ⟨hne, hrest⟩ := List.forall_mem_cons.mp hrest
    refine ih ?_ hrest
    cases hl : c.2.living e' with
    | true => rwa [look_living hl]
    | false => exact (mem_look_dead hl e).mpr ⟨he, hne⟩

theorem left_purging (u : Use) : u.Left outside (u.purging outside) := by
  refine ⟨u.living, ?_⟩
  have hroot := Level.purged_eq_keep u.heap.alive u.store.root
  simp only [purging, Store.purged, hroot]
  rfl

theorem mem_purging (e : List Key × Stored) :
    e ∈ (u.purging outside).entries ↔ e ∈ u.entries ∧ u.living e = true := by
  change e ∈ (u.store.root.purged u.heap.alive).entries ↔ _
  rw [Level.entries_purged, List.mem_filter]
  rfl

/-- The purge of the program is the pass that meets the living entries first. -/
theorem call_purging (hu : u.Settled outside) {n : Nat} (hn : u.store.released u.heap = n) :
    u.Call outside n (u.purging outside) := by
  subst hn
  have horder : (u.entries.filter u.living ++ u.entries.filter fun e => !u.living e).Perm
      u.entries := List.filter_append_perm u.living u.entries
  obtain ⟨⟨n, w⟩, hrun⟩ : ∃ c, u.passed outside
      (u.entries.filter u.living ++ u.entries.filter fun e => !u.living e) = c := ⟨_, rfl⟩
  have hpass := Call.partway hu ⟨_, horder, hrun⟩
  have hstart : (u.entries.filter u.living).foldl (look outside) (0, u.thinned fun _ => true) =
      (0, u.thinned fun _ => true) :=
    foldl_look_living fun e he => (List.mem_filter.mp he).2
  have hstay : ∀ e ∈ u.entries, u.living e = true → e ∈ w.entries := by
    intro e he hl
    rw [show w = (n, w).2 from rfl, ← hrun, passed, List.foldl_append, hstart]
    refine mem_foldl_look (by rwa [entries_thinned_true]) fun e' he' hpath => ?_
    obtain ⟨he', hdead⟩ := List.mem_filter.mp he'
    rw [hu.eq_of_path he' he hpath] at hl
    simp [hl] at hdead
  have hleft : w = u.purging outside := by
    refine hpass.left.eq_of_entries (left_purging u) fun e => ?_
    rw [mem_purging]
    refine ⟨fun he => ⟨hpass.left.mem he, hpass.live e he List.not_mem_nil⟩, ?_⟩
    exact fun h => hstay e h.1 h.2
  have hcount : n + w.entries.length = u.entries.length := hpass.count
  have hreleased : u.store.released u.heap + (u.purging outside).entries.length =
      u.entries.length := by
    have h := Level.released_eq u.heap.alive u.store.root
    rwa [← Level.entries_purged] at h
  rw [hleft] at hcount hrun
  exact ⟨_, horder, hrun.trans (congrArg (·, u.purging outside) (by omega))⟩

/-! ### Weak stores -/

/-- Nothing in a weak store is held strongly. -/
theorem Reachable.strongValues_weak (hu : u.Reachable) (hweak : u.store.retention = .weak) :
    u.store.root.strongValues = [] := by
  obtain ⟨h, hs, retention, hsteps⟩ := hu
  have hnone : ∀ path x, u.store.root.stored? path ≠ some (.strong x) := by
    induction hsteps with
    | refl => simp
    | @tail u u' hbefore hstep ih =>
      have hk := Reachable.kept ⟨h, hs, retention, hbefore⟩
      have hretention : u.store.retention = .weak := by
        cases hstep with
        | intern keys path x store _ hpath _ hrun =>
          obtain ⟨_, rfl⟩ := intern_none (Key.path_ok hpath).2 hrun
          exact hweak
        | find keys path x found store _ hpath hrun =>
          obtain ⟨_, rfl⟩ := intern_some (Key.path_ok hpath).2 hrun
          exact hweak
        | make | drop | set | delete | purge | clear => exact hweak
      intro path x hx
      rcases hstep.strong hk.distinct hx with hx | ⟨_, _, hx⟩
      · exact ih hretention path x hx
      · simp [stored, hretention] at hx
  have hd := (Reachable.kept ⟨h, hs, retention, hsteps⟩).distinct
  refine List.eq_nil_iff_forall_not_mem.mpr fun x hx => ?_
  obtain ⟨path, hx⟩ := Level.exists_stored_of_mem_strongValues hd hx
  exact hnone path x hx

/-- Where nothing is held strongly a call makes nothing die. -/
theorem Call.living_of_weak (hu : u.Settled outside) (hvalues : u.store.root.strongValues = [])
    {n : Nat} (h : u.Call outside n v) : ∀ e ∈ v.entries, v.living e = true := by
  have hpass := h.partway hu
  have hvalues' : v.store.root.strongValues = [] := by
    refine List.eq_nil_iff_forall_not_mem.mpr fun x hx => ?_
    have := Level.strongValues_mono (fun e he => hpass.left.mem he) x hx
    rw [hvalues] at this
    cases this
  have hheap : v.heap = u.heap := by
    rw [hpass.left.heap, hvalues', ← hvalues, hu.heap]
  intro e he
  have hl := hpass.live e he List.not_mem_nil
  rw [living] at hl ⊢
  rwa [hheap]

/-! ### Calls to the end -/

/-- A call that released nothing found all entries living. -/
theorem Call.of_zero (hu : u.Settled outside) (h : u.Call outside 0 v) :
    v = (u.thinned fun _ => true) ∧ ∀ e ∈ v.entries, v.living e = true := by
  have hpass := h.partway hu
  have hentries : v.entries = u.entries := by
    obtain ⟨stays, hstays⟩ := hpass.left.entries
    have hlength := hpass.count
    rw [Nat.zero_add, hstays] at hlength
    rw [hstays, List.filter_sublist.eq_of_length hlength]
  have hsame : v = (u.thinned fun _ => true) := by
    refine hpass.left.eq_of_entries hu.left fun e => ?_
    rw [hentries, entries_thinned_true]
  refine ⟨hsame, fun e he => ?_⟩
  have hl := hpass.live e he List.not_mem_nil
  rw [hsame]
  exact hl

theorem Calls.of_living {k : Nat} (h : Calls outside k v w)
    (hslots : (v.thinned fun _ => true) = v) (hl : ∀ e ∈ v.entries, v.living e = true) :
    w = v := by
  induction k with
  | zero => exact h
  | succ k ih =>
    obtain ⟨n, v', hcall, hcalls⟩ := h
    obtain ⟨-, rfl⟩ := hcall.of_living hslots hl
    exact ih hcalls

theorem Calls.left (hu : u.Settled outside) {k : Nat} (h : Calls outside (k + 1) u v) :
    u.Left outside v := by
  induction k generalizing u with
  | zero =>
    obtain ⟨n, v', hcall, rfl⟩ := h
    exact hcall.left hu
  | succ k ih =>
    obtain ⟨n, v', hcall, hcalls⟩ := h
    have hleft := hcall.left hu
    exact hleft.trans hu.sound (ih (hleft.settled hu) hcalls)

/-- Each call before the end releases something. -/
theorem Calls.living_or_fewer (hu : u.Settled outside) {k : Nat} (h : Calls outside k u v) :
    (∀ e ∈ v.entries, v.living e = true) ∨ v.entries.length + k ≤ u.entries.length := by
  induction k generalizing u with
  | zero =>
    rw [show v = u from h]
    exact .inr (Nat.le_refl _)
  | succ k ih =>
    obtain ⟨n, v', hcall, hcalls⟩ := h
    have hleft := hcall.left hu
    by_cases hn : n = 0
    · subst hn
      have hl := (hcall.of_zero hu).2
      rw [hcalls.of_living hleft.thinned_true hl]
      exact .inl hl
    · refine (ih (hleft.settled hu) hcalls).imp_right fun hle => ?_
      have hcount := (hcall.called hu).count
      omega

/-- After as many calls as there are entries, all that is left is living. -/
theorem Calls.living (hu : u.Settled outside) {k : Nat} (h : Calls outside k u v)
    (hk : u.entries.length ≤ k) : ∀ e ∈ v.entries, v.living e = true := by
  rcases h.living_or_fewer hu with hl | hle
  · exact hl
  · intro e he
    have := List.length_pos_of_mem he
    omega

/-! ### The order of the entries -/

/-- Entries that keep each other alive outlast every release. -/
theorem Left.outlasts (hu : u.Settled outside) (hv : u.Left outside v)
    (hl : ∀ e ∈ v.entries, v.living e = true) {order : List (List Key × Stored)}
    (horder : ∀ e ∈ order, e ∈ u.entries) {c : Nat × Use} (hc : u.Left outside c.2)
    (hsub : ∀ e ∈ v.entries, e ∈ c.2.entries) :
    ∀ e ∈ v.entries, e ∈ (order.foldl (Use.look outside) c).2.entries := by
  induction order generalizing c with
  | nil => exact hsub
  | cons e order ih =>
    obtain ⟨he, horder⟩ := List.forall_mem_cons.mp horder
    refine ih horder (hc.look hu.sound e) fun e' he' => ?_
    cases hdead : c.2.living e with
    | true =>
      rw [look_living hdead]
      exact hsub e' he'
    | false =>
      refine (mem_look_dead hdead e').mpr ⟨hsub e' he', fun hpath => ?_⟩
      have hliving := hv.living hu.sound hc hsub (hl e' he')
      rw [hu.eq_of_path he (hv.mem he') hpath, hdead] at hliving
      cases hliving

theorem Calls.outlasted (hu : u.Settled outside) (hv : u.Left outside v)
    (hl : ∀ e ∈ v.entries, v.living e = true) {x : Use} (hx : x.Settled outside)
    (hstart : u.Left outside (x.thinned fun _ => true)) (hsub : ∀ e ∈ v.entries, e ∈ x.entries)
    {k : Nat} (h : Calls outside k x w) : ∀ e ∈ v.entries, e ∈ w.entries := by
  induction k generalizing x with
  | zero => rwa [show w = x from h]
  | succ k ih =>
    obtain ⟨n, x', hcall, hcalls⟩ := h
    have hleft := hcall.left hx
    refine ih (hleft.settled hx) ?_ ?_ hcalls
    · rw [hleft.thinned_true]
      exact hstart.trans hu.sound hleft.of_thinned
    · obtain ⟨order, horder, hrun⟩ := hcall
      rw [show x' = (n, x').2 from rfl, ← hrun]
      refine hv.outlasts hu hl (fun e he => hstart.mem ?_) hstart fun e he => ?_
      · rwa [entries_thinned_true, ← horder.mem_iff]
      · rw [entries_thinned_true]
        exact hsub e he

/-- However the entries are met, the same are left in the end. -/
theorem Calls.unique (hu : u.Settled outside) {j k : Nat} (hv : Calls outside (j + 1) u v)
    (hw : Calls outside (k + 1) u w) (hlv : ∀ e ∈ v.entries, v.living e = true)
    (hlw : ∀ e ∈ w.entries, w.living e = true) : v = w := by
  have hleft := hv.left hu
  have hright := hw.left hu
  refine hleft.eq_of_entries hright fun e => ⟨?_, ?_⟩
  · exact hw.outlasted hu hleft hlv hu hu.left (fun e he => hleft.mem he) e
  · exact hv.outlasted hu hright hlw hu hu.left (fun e he => hright.mem he) e

/-! ### Calls one after the other -/

theorem dropped_dropped (hs : u.heap.Sound) :
    (u.dropped outside).dropped outside = u.dropped outside := by
  simp only [dropped, Heap.collect_collect hs]

/-- What two calls in a row do, and what more of them come to, however the entries are
met: the second one finds something exactly where the first one's releases made an entry
die that it left, which they never do in a weak store. -/
theorem Reachable.purged_twice {u u₁ u₂ : Use} (hu : u.Reachable) {outside : List Value}
    (hsettled : u.dropped outside = u) {n m : Nat} (hfirst : u.Call outside n u₁)
    (hsecond : u₁.Call outside m u₂) :
    (u.Call outside (u.store.released u.heap) (u.purging outside) ∧
      u₁.Call outside (u₁.store.released u₁.heap) (u₁.purging outside)) ∧
    (Called u u₁ n ∧ Called u₁ u₂ m) ∧
    (m = 0 ∧ u₂ = u₁ ↔ ∀ e ∈ u₁.entries, u₁.living e = true) ∧
    (∀ e ∈ u₁.entries, u.living e = true) ∧
    (u.store.retention = .weak → m = 0 ∧ u₂ = u₁) ∧
    ∀ k, u.entries.length ≤ k + 1 → ∀ v, Calls outside (k + 1) u v →
      ∀ i w, v.Call outside i w → i = 0 ∧ w = v := by
  have hs := hu.settled hsettled
  have hleft := hfirst.left hs
  have hs₁ := hleft.settled hs
  have hagain := hfirst.again_iff hs hsecond
  refine ⟨⟨call_purging hs rfl, call_purging hs₁ rfl⟩, ⟨hfirst.called hs, hsecond.called hs₁⟩, hagain,
    fun e he => (hfirst.partway hs).live e he List.not_mem_nil, fun hweak => ?_, ?_⟩
  · exact hagain.mpr (hfirst.living_of_weak hs (hu.strongValues_weak hweak))
  · intro k hk v hcalls i w hcall
    exact hcall.of_living (hcalls.left hs).thinned_true (hcalls.living hs hk)

/-- The first list died, and its entry goes with the first purge. That entry's value was
the last to refer to the second list, whose entry goes with the second purge. -/
theorem chained_purged_twice :
    (chained.dropped []).Reachable ∧
      (chained.dropped []).dropped [] = chained.dropped [] ∧
      ∃ u₁ u₂, (chained.dropped []).Call [] 1 u₁ ∧ u₁.Call [] 1 u₂ ∧
        Called (chained.dropped []) u₁ 1 ∧ Called u₁ u₂ 1 := by
  have hu : (chained.dropped []).Reachable := reachable_chained.dropped (by simp)
  have hd : (chained.dropped []).dropped [] = chained.dropped [] :=
    dropped_dropped reachable_chained.kept.sound
  have hs := hu.settled hd
  have hfirst : (chained.dropped []).Call [] 1 ((chained.dropped []).purging []) :=
    call_purging hs rfl
  have hone : ((chained.dropped []).purging []).store.released
      ((chained.dropped []).purging []).heap = 1 := by decide
  have hsecond := call_purging ((hfirst.left hs).settled hs) hone
  obtain ⟨-, hcalled, -⟩ := hu.purged_twice hd hfirst hsecond
  exact ⟨hu, hd, _, _, hfirst, hsecond, hcalled⟩

/-- So the second of two purges in a row may release something. -/
theorem chained_purged_again :
    (chained.dropped []).Reachable ∧
      (chained.dropped []).dropped [] = chained.dropped [] ∧
      ((chained.dropped []).purging []).store.released ((chained.dropped []).purging []).heap ≠ 0 ∧
      ((chained.dropped []).purging []).purging [] ≠ (chained.dropped []).purging [] := by
  refine ⟨reachable_chained.dropped (by simp), dropped_dropped reachable_chained.kept.sound,
    by decide, fun h => ?_⟩
  have hentries := congrArg (fun u => u.entries.length) h
  revert hentries
  decide

end Use
end OpenVariants.Store

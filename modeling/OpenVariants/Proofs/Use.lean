import Mathlib.Logic.Relation
import OpenVariants.Proofs.Entries
import OpenVariants.Proofs.Key
import OpenVariants.Proofs.Reach

/-! A store in use.

A store is written to and purged while objects are made and die (`Use.Step`); notes of
the effective writes stay behind. Through all of it every path is read as the notes say,
except that a purge may have dropped what nobody can read any more (`Use.Reads`): an
entry that died never lives again, because no number is given twice. -/
namespace OpenVariants.Store

/-- An effective write. -/
inductive Note where
  | put (keys : List Value) (held : Stored)
  | deleted (keys : List Value)
  | cleared

namespace Note

/-- The values of a note came to hand at some time. -/
def Known (h : Heap) : Note → Prop
  | put keys held => (∀ k ∈ keys, h.Known k) ∧ h.Known held.value
  | deleted keys => ∀ k ∈ keys, h.Known k
  | cleared => True

theorem Known.later {h h' : Heap} (hb : h.Before h') {n : Note} (hn : n.Known h) : n.Known h' := by
  cases n with
  | put keys held => exact ⟨fun k hk => (hn.1 k hk).later hb, hn.2.later hb⟩
  | deleted keys => exact fun k hk => (hn k hk).later hb
  | cleared => trivial

end Note

/-- What the last effective write on a path left there. Later notes come first. -/
def noted (path : List Key) : List Note → Option Stored
  | [] => none
  | .put keys held :: notes => if keys.map Key.ofValue = path then some held else noted path notes
  | .deleted keys :: notes => if keys.map Key.ofValue = path then none else noted path notes
  | .cleared :: _ => none

/-- A store, with the objects of its time and the notes so far. -/
structure Use where
  heap : Heap
  store : Store
  notes : List Note := []

namespace Use

inductive Step (u : Use) : Use → Prop
  | make (o : Object) (ho : ∀ v ∈ o.children, u.heap.Proper v) :
    Step u {u with heap := u.heap.push o}
  /-- Values are dropped: any objects may die but what the store holds strongly. -/
  | drop (heap : Heap) (hr : u.heap.Retains heap u.store.root.strongValues) :
    Step u {u with heap}
  | set (keys : List Value) (path : List Key) (v : Value)
    (hkeys : ∀ k ∈ keys, u.heap.Proper k) (hpath : Key.path keys = .ok path)
    (hv : u.heap.Proper v) :
    Step u {u with
      store := u.store.set u.heap path v
      notes := .put keys (u.store.stored u.heap path v) :: u.notes}
  | intern (keys : List Value) (path : List Key) (v : Value) (store : Store)
    (hkeys : ∀ k ∈ keys, u.heap.Proper k) (hpath : Key.path keys = .ok path)
    (hv : u.heap.Proper v) (hrun : u.store.intern u.heap path v = (none, store)) :
    Step u {u with
      store := store
      notes := .put keys (u.store.stored u.heap path v) :: u.notes}
  | find (keys : List Value) (path : List Key) (v found : Value) (store : Store)
    (hkeys : ∀ k ∈ keys, u.heap.Proper k) (hpath : Key.path keys = .ok path)
    (hrun : u.store.intern u.heap path v = (some found, store)) :
    Step u {u with store := store}
  | delete (keys : List Value) (path : List Key)
    (hkeys : ∀ k ∈ keys, u.heap.Proper k) (hpath : Key.path keys = .ok path) :
    Step u {u with
      store := (u.store.delete u.heap path).2
      notes := .deleted keys :: u.notes}
  | purge : Step u {u with store := u.store.purged u.heap}
  | clear : Step u {u with store := u.store.cleared, notes := .cleared :: u.notes}

/-- Any number of steps. -/
abbrev Steps : Use → Use → Prop := Relation.ReflTransGen Step

/-- What the use of a new store can come to, whatever objects there are at first. -/
def Reachable (u : Use) : Prop :=
  ∃ h : Heap, h.Sound ∧ ∃ retention, Steps ⟨h, ⟨retention, .nil⟩, []⟩ u

end Use

/-! ### Operations, as changes of what is read -/

theorem intern_eq (h : Heap) (path : List Key) (v : Value) (s : Store) (hp : path ≠ []) :
    s.intern h path v =
      match s.get? h path with
      | some found => (some found, s)
      | none => (none, s.set h path v) := by
  rw [intern, Level.intern_eq _ _ _ _ hp]
  unfold get?
  cases s.root.get? h.alive path <;> rfl

theorem intern_none {h : Heap} {path : List Key} {v : Value} {s s' : Store} (hp : path ≠ [])
    (hrun : s.intern h path v = (none, s')) : s.get? h path = none ∧ s' = s.set h path v := by
  rw [intern_eq _ _ _ _ hp] at hrun
  split at hrun <;> cases hrun
  exact ⟨‹_›, rfl⟩

theorem intern_some {h : Heap} {path : List Key} {v found : Value} {s s' : Store} (hp : path ≠ [])
    (hrun : s.intern h path v = (some found, s')) : s.get? h path = some found ∧ s' = s := by
  rw [intern_eq _ _ _ _ hp] at hrun
  split at hrun <;> cases hrun
  exact ⟨‹_›, rfl⟩

theorem stored_value (h : Heap) (path : List Key) (v : Value) (s : Store) :
    (s.stored h path v).value = v := by
  unfold stored
  split
  · rfl
  · split <;> rfl

theorem stored?_set (h : Heap) (path q : List Key) (v : Value) (s : Store) (hp : path ≠ []) :
    (s.set h path v).root.stored? q =
      if q = path then some (s.stored h path v) else s.root.stored? q :=
  Level.stored?_insert _ _ _ _ hp

theorem stored?_delete (h : Heap) (path q : List Key) (s : Store) :
    (s.delete h path).2.root.stored? q = if q = path then none else s.root.stored? q :=
  Level.stored?_erase _ _ _

namespace Use

/-- The object behind a key of values that came to hand. -/
theorem lt_size_of_mem {h : Heap} {keys : List Value} (hkeys : ∀ k ∈ keys, h.Known k)
    {id : ObjectId} (hid : Key.object id ∈ keys.map Key.ofValue) : id < h.size := by
  obtain ⟨k, hk, hkey⟩ := List.mem_map.mp hid
  exact (hkeys k hk id (Heap.ofValue_eq_object hkey)).1

/-- What is noted came to hand. -/
theorem made_noted {h : Heap} {notes : List Note} (hnotes : ∀ n ∈ notes, n.Known h)
    {path : List Key} {held : Stored} (hn : noted path notes = some held) :
    Level.Made h (path, held) := by
  induction notes with
  | nil => cases hn
  | cons n notes ih =>
    obtain ⟨hhead, htail⟩ := List.forall_mem_cons.mp hnotes
    cases n with
    | put keys held' =>
      rw [noted] at hn
      split at hn
      · next hpath =>
        cases hn
        cases hpath
        exact ⟨fun id => lt_size_of_mem hhead.1, fun id hid => (hhead.2 id hid).1⟩
      · exact ih htail hn
    | deleted keys =>
      rw [noted] at hn
      split at hn
      · cases hn
      · exact ih htail hn
    | cleared => cases hn

/-- A path is read as the notes say, or what they say died and is there no more. -/
def Reads (u : Use) (path : List Key) : Prop :=
  u.store.root.stored? path = noted path u.notes ∨
    u.store.root.stored? path = none ∧
      ∃ held, noted path u.notes = some held ∧ Level.living u.heap.alive (path, held) = false

/-- What every use keeps. -/
structure Kept (u : Use) : Prop where
  sound : u.heap.Sound
  distinct : u.store.root.Distinct
  strong : ∀ path v, u.store.root.stored? path = some (.strong v) → u.heap.Proper v
  known : ∀ n ∈ u.notes, n.Known u.heap
  reads : ∀ path, u.Reads path

/-! ### What a step does -/

theorem Step.before {u u' : Use} (hstep : Step u u') : u.heap.Before u'.heap := by
  cases hstep with
  | make o _ => exact Heap.before_push u.heap o
  | drop heap hr => exact hr.before
  | set | intern | find | delete | purge | clear => exact .refl _

theorem Step.sound {u u' : Use} (hstep : Step u u') (hs : u.heap.Sound) : u'.heap.Sound := by
  cases hstep with
  | make o ho => exact hs.push o ho
  | drop heap hr => exact hs.retains hr
  | set | intern | find | delete | purge | clear => exact hs

/-- A value that is held strongly after a step was so before, or was put there. -/
theorem Step.strong {u u' : Use} (hstep : Step u u') (hd : u.store.root.Distinct)
    {path : List Key} {v : Value} (hs : u'.store.root.stored? path = some (.strong v)) :
    u.store.root.stored? path = some (.strong v) ∨
      u'.heap = u.heap ∧ u.heap.Proper v ∧ u.store.stored u.heap path v = .strong v ∧
        ∃ keys : List Value, (∀ k ∈ keys, u.heap.Proper k) ∧ path = keys.map Key.ofValue := by
  have hput : ∀ (keys : List Value) (p : List Key) (x : Value), (∀ k ∈ keys, u.heap.Proper k) →
      Key.path keys = .ok p → u.heap.Proper x →
      (u.store.set u.heap p x).root.stored? path = some (.strong v) →
      u.store.root.stored? path = some (.strong v) ∨
        u.heap.Proper v ∧ u.store.stored u.heap path v = .strong v ∧
          ∃ keys : List Value, (∀ k ∈ keys, u.heap.Proper k) ∧ path = keys.map Key.ofValue := by
    intro keys p x hkeys hpath hx hs
    rw [stored?_set _ _ _ _ _ (Key.path_ok hpath).2] at hs
    split at hs
    · next heq =>
      cases heq
      have hheld := Option.some.inj hs
      have hvalue : x = v := by rw [← stored_value u.heap path x u.store, hheld]; rfl
      cases hvalue
      exact .inr ⟨hx, hheld, keys, hkeys, (Key.path_ok hpath).1⟩
    · exact .inl hs
  cases hstep with
  | make | drop => exact .inl hs
  | set keys p x hkeys hpath hx =>
    exact (hput keys p x hkeys hpath hx hs).imp_right fun h => ⟨rfl, h⟩
  | intern keys p x store hkeys hpath hx hrun =>
    obtain ⟨_, rfl⟩ := intern_none (Key.path_ok hpath).2 hrun
    exact (hput keys p x hkeys hpath hx hs).imp_right fun h => ⟨rfl, h⟩
  | find keys p x found store _ hpath hrun =>
    obtain ⟨_, rfl⟩ := intern_some (Key.path_ok hpath).2 hrun
    exact .inl hs
  | delete keys p _ _ =>
    change (u.store.delete u.heap p).2.root.stored? path = _ at hs
    rw [stored?_delete] at hs
    split at hs
    · cases hs
    · exact .inl hs
  | purge =>
    change (u.store.root.purged u.heap.alive).stored? path = _ at hs
    rw [Level.stored?_purged _ hd] at hs
    split at hs
    · exact .inl (Option.filter_eq_some_iff.mp hs).1
    · cases hs
  | clear => simp [cleared] at hs

/-- What a store holds strongly outlives every step. -/
theorem Step.proper {u u' : Use} (hstep : Step u u') {v : Value}
    (hv : v ∈ u.store.root.strongValues) (hp : u.heap.Proper v) : u'.heap.Proper v := by
  cases hstep with
  | make o _ => exact hp.extends (Heap.extends_push u.heap o)
  | drop heap hr => exact hp.later hr.before (hr.kept v hv)
  | set | intern | find | delete | purge | clear => exact hp

/-- Every note of a step is an earlier one or about values in hand. -/
theorem Step.known {u u' : Use} (hstep : Step u u') (hknown : ∀ n ∈ u.notes, n.Known u.heap) :
    ∀ n ∈ u'.notes, n.Known u'.heap := by
  have hlater : ∀ n ∈ u.notes, n.Known u'.heap := fun n hn => (hknown n hn).later hstep.before
  cases hstep with
  | make | drop | find | purge => exact hlater
  | set keys path v hkeys _ hv | intern keys path v _ hkeys _ hv _ =>
    refine List.forall_mem_cons.mpr ⟨⟨fun k hk => (hkeys k hk).known, ?_⟩, hlater⟩
    rw [stored_value]
    exact hv.known
  | delete keys path hkeys _ =>
    exact List.forall_mem_cons.mpr ⟨fun k hk => (hkeys k hk).known, hlater⟩
  | clear => exact List.forall_mem_cons.mpr ⟨trivial, hlater⟩

/-! ### What is read -/

/-- The death of objects changes no reading, nor does the birth of others. -/
theorem Reads.later {u : Use} {heap : Heap} (hb : u.heap.Before heap)
    (hknown : ∀ n ∈ u.notes, n.Known u.heap) {path : List Key} (hr : u.Reads path) :
    Reads {u with heap} path := by
  refine hr.imp_right fun ⟨hnone, held, hn, hdead⟩ => ⟨hnone, held, hn, ?_⟩
  rw [← Bool.not_eq_true] at hdead ⊢
  exact mt ((made_noted hknown hn).living hb) hdead

theorem Reads.put {u : Use} {keys : List Value} {path q : List Key} (v : Value)
    (hpath : Key.path keys = .ok path) (hr : u.Reads q) :
    Reads {u with
      store := u.store.set u.heap path v
      notes := .put keys (u.store.stored u.heap path v) :: u.notes} q := by
  obtain ⟨rfl, hne⟩ := Key.path_ok hpath
  unfold Reads
  simp only [stored?_set _ _ _ _ _ hne, noted, eq_comm (a := q)]
  split
  · exact .inl rfl
  · exact hr

theorem Reads.delete {u : Use} {keys : List Value} {path q : List Key}
    (hpath : Key.path keys = .ok path) (hr : u.Reads q) :
    Reads {u with
      store := (u.store.delete u.heap path).2
      notes := .deleted keys :: u.notes} q := by
  obtain ⟨rfl, _⟩ := Key.path_ok hpath
  unfold Reads
  simp only [stored?_delete, noted, eq_comm (a := q)]
  split
  · exact .inl rfl
  · exact hr

/-- A purge takes away what died, and that only. -/
theorem Reads.purge {u : Use} (hd : u.store.root.Distinct) {path : List Key} (hr : u.Reads path) :
    Reads {u with store := u.store.purged u.heap} path := by
  unfold Reads
  change (u.store.root.purged u.heap.alive).stored? path = _ ∨
    (u.store.root.purged u.heap.alive).stored? path = none ∧ _
  rw [Level.stored?_purged _ hd]
  rcases hr with hr | ⟨hnone, hdead⟩
  · rw [hr]
    cases hn : noted path u.notes with
    | none => simp
    | some held =>
      cases hl : Level.living u.heap.alive (path, held) with
      | true =>
        obtain ⟨hpath, hheld⟩ := Bool.and_eq_true_iff.mp hl
        rw [if_pos hpath, Option.filter_some, if_pos hheld]
        exact .inl rfl
      | false =>
        refine .inr ⟨?_, held, rfl, hl⟩
        split
        · next hpath =>
          rw [Level.living, hpath, Bool.true_and] at hl
          simp [Option.filter, hl]
        · rfl
  · refine .inr ⟨?_, hdead⟩
    rw [hnone]
    split <;> rfl

/-! ### A whole use -/

theorem Kept.step {u u' : Use} (hk : u.Kept) (hstep : Step u u') : u'.Kept where
  sound := hstep.sound hk.sound
  distinct := by
    have hd := hk.distinct
    cases hstep with
    | make | drop => exact hd
    | set keys path v => exact hd.insert _ path
    | intern keys path v store _ hpath _ hrun =>
      obtain ⟨_, rfl⟩ := intern_none (Key.path_ok hpath).2 hrun
      exact hd.insert _ path
    | find keys path v found store _ hpath hrun =>
      obtain ⟨_, rfl⟩ := intern_some (Key.path_ok hpath).2 hrun
      exact hd
    | delete keys path => exact hd.erase path
    | purge => exact hd.purged _
    | clear => trivial
  strong path v hs := by
    rcases hstep.strong hk.distinct hs with hs | ⟨hheap, hv, _⟩
    · exact hstep.proper (Level.mem_strongValues hs) (hk.strong path v hs)
    · rwa [hheap]
  known := hstep.known hk.known
  reads path := by
    have hr := hk.reads path
    cases hstep with
    | make o ho => exact hr.later (Heap.before_push u.heap o) hk.known
    | drop heap h => exact hr.later h.before hk.known
    | set keys p v _ hpath _ => exact hr.put v hpath
    | intern keys p v store _ hpath _ hrun =>
      obtain ⟨_, rfl⟩ := intern_none (Key.path_ok hpath).2 hrun
      exact hr.put v hpath
    | find keys p v found store _ hpath hrun =>
      obtain ⟨_, rfl⟩ := intern_some (Key.path_ok hpath).2 hrun
      exact hr
    | delete keys p _ hpath => exact hr.delete hpath
    | purge => exact hr.purge hk.distinct
    | clear => exact .inl (Level.stored?_nil path)

theorem Kept.steps {u u' : Use} (hk : u.Kept) (hsteps : Steps u u') : u'.Kept := by
  induction hsteps with
  | refl => exact hk
  | tail _ hstep ih => exact ih.step hstep

theorem Reachable.kept {u : Use} (hu : u.Reachable) : u.Kept := by
  obtain ⟨h, hs, retention, hsteps⟩ := hu
  have hk : Kept ⟨h, ⟨retention, .nil⟩, []⟩ :=
    { sound := hs
      distinct := trivial
      strong := by simp
      known := by simp
      reads := fun path => .inl (Level.stored?_nil path) }
  exact hk.steps hsteps

theorem Reachable.step {u u' : Use} (hu : u.Reachable) (hstep : Step u u') : u'.Reachable := by
  obtain ⟨h, hs, retention, hsteps⟩ := hu
  exact ⟨h, hs, retention, hsteps.tail hstep⟩

/-- Everything is dropped but what is held outside and what the store holds. -/
def dropped (outside : List Value) (u : Use) : Use :=
  {u with heap := u.heap.collect (outside ++ u.store.root.strongValues)}

theorem Kept.proper_roots {u : Use} (hk : u.Kept) {outside : List Value}
    (hout : ∀ v ∈ outside, u.heap.Proper v) :
    ∀ v ∈ outside ++ u.store.root.strongValues, u.heap.Proper v := by
  intro v hv
  rcases List.mem_append.mp hv with hv | hv
  · exact hout v hv
  · obtain ⟨path, hpath⟩ := Level.exists_stored_of_mem_strongValues hk.distinct hv
    exact hk.strong path v hpath

theorem Reachable.dropped {u : Use} (hu : u.Reachable) {outside : List Value}
    (hout : ∀ v ∈ outside, u.heap.Proper v) : (u.dropped outside).Reachable := by
  have hr := Heap.retains_collect hu.kept.sound _ (hu.kept.proper_roots hout)
  refine hu.step (.drop _ ⟨hr.size, hr.object, hr.closed, fun v hv => ?_⟩)
  exact hr.kept v (List.mem_append_right outside hv)

end Use

end OpenVariants.Store

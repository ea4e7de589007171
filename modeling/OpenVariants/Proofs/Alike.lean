import OpenVariants.Proofs.Canonical
import OpenVariants.Proofs.Entries

/-! Registries that only their sweeps tell apart.

Two registries are twins if they have the same limits on calls and the same counters,
and their canonical stores have the same living entries (`Registry.Twin`). What a sweep
removes is not living, and what is not living never comes to life again; so twins stay
twins when either of them is swept, when objects are made or die, and when both learn
the same instance. To a construction on values in hand twins are the same
(`canonicalize_twins`), and they count the same living instances. -/
namespace OpenVariants

open Store

/-- An instance that came to hand and has this path as long as it lives. -/
structure Heap.Under (h : Heap) (id : ObjectId) (path : List Key) : Prop where
  known : h.Known (.inst id)
  fields : ∀ o, h.object? id = some o →
    ∃ tag values, o = .content (.fields tag values) ∧ path = World.canonicalPath tag values

theorem Heap.Under.later {h h' : Heap} {id : ObjectId} {path : List Key} (hu : h.Under id path)
    (hb : h.Before h') : h'.Under id path :=
  ⟨hu.known.later hb, fun o ho => hu.fields o (hb.object id o (hu.known id rfl).1 ho)⟩

namespace Registry

/-- The canonical store holds instances weakly, each under its own path. -/
structure Fit (h : Heap) (a : Registry) : Prop where
  retention : a.canonical.retention = .weak
  distinct : a.canonical.root.Distinct
  weak : ∀ path held, a.canonical.root.stored? path = some held →
    ∃ id, held = .weak (.inst id) ∧ h.Under id path
  made : ∀ path held, a.canonical.root.stored? path = some held → Level.Made h (path, held)

structure Twin (h : Heap) (a b : Registry) : Prop where
  left : a.Fit h
  right : b.Fit h
  maxDepth : a.config.maxDepth = b.config.maxDepth
  nextTag : a.nextTag = b.nextTag
  nextData : a.nextData = b.nextData
  living : ∀ e, Level.living h.alive e = true →
    (a.canonical.root.stored? e.1 = some e.2 ↔ b.canonical.root.stored? e.1 = some e.2)

/-- A registry after it was counted, and swept or not. -/
structure Swept (h : Heap) (a a' : Registry) : Prop where
  config : a'.config = a.config
  nextTag : a'.nextTag = a.nextTag
  nextData : a'.nextData = a.nextData
  canonical : a'.canonical = a.canonical ∨ a'.canonical = a.canonical.purged h

theorem Swept.refl (h : Heap) (a : Registry) : a.Swept h a := ⟨rfl, rfl, rfl, .inl rfl⟩

section
variable {h h' : Heap} {a a' b b' : Registry}

theorem Fit.later (ha : a.Fit h) (hb : h.Before h') : a.Fit h' where
  retention := ha.retention
  distinct := ha.distinct
  weak path held hs := by
    obtain ⟨id, hid, hu⟩ := ha.weak path held hs
    exact ⟨id, hid, hu.later hb⟩
  made path held hs := (ha.made path held hs).later hb

theorem Fit.purged (ha : a.Fit h) {s : Store} (hs : s = a.canonical.purged h) {a' : Registry}
    (hcanonical : a'.canonical = s) : a'.Fit h := by
  have hstored : ∀ path held, a'.canonical.root.stored? path = some held →
      a.canonical.root.stored? path = some held := by
    intro path held h'
    rw [hcanonical, hs] at h'
    change (a.canonical.root.purged h.alive).stored? path = _ at h'
    rw [Level.stored?_purged _ ha.distinct] at h'
    split at h'
    · exact Option.eq_some_of_filter_eq_some h'
    · cases h'
  refine ⟨?_, ?_, fun path held h' => ha.weak path held (hstored path held h'),
    fun path held h' => ha.made path held (hstored path held h')⟩
  · rw [hcanonical, hs]
    exact ha.retention
  · rw [hcanonical, hs]
    exact ha.distinct.purged _

/-- A sweep leaves the living entries. -/
theorem Swept.living (hs : a.Swept h a') (ha : a.Fit h) {e : List Key × Stored}
    (hl : Level.living h.alive e = true) :
    a'.canonical.root.stored? e.1 = some e.2 ↔ a.canonical.root.stored? e.1 = some e.2 := by
  rcases hs.canonical with hsame | hpurged
  · rw [hsame]
  · obtain ⟨hpath, hheld⟩ := Bool.and_eq_true_iff.mp hl
    rw [hpurged]
    change (a.canonical.root.purged h.alive).stored? e.1 = _ ↔ _
    rw [Level.stored?_purged _ ha.distinct, if_pos hpath, Option.filter_eq_some_iff]
    exact and_iff_left hheld

theorem Swept.fit (hs : a.Swept h a') (ha : a.Fit h) : a'.Fit h := by
  rcases hs.canonical with hsame | hpurged
  · exact ⟨hsame ▸ ha.retention, hsame ▸ ha.distinct, hsame ▸ ha.weak, hsame ▸ ha.made⟩
  · exact ha.purged rfl hpurged

/-- Twins stay twins, whatever is made or dies. -/
theorem Twin.later (ht : a.Twin h b) (hb : h.Before h') : a.Twin h' b where
  left := ht.left.later hb
  right := ht.right.later hb
  maxDepth := ht.maxDepth
  nextTag := ht.nextTag
  nextData := ht.nextData
  living e hl := by
    constructor
    · exact fun hs => (ht.living e ((ht.left.made _ _ hs).living hb hl)).mp hs
    · exact fun hs => (ht.living e ((ht.right.made _ _ hs).living hb hl)).mpr hs

/-- Twins stay twins, however they are swept. -/
theorem Twin.swept (ht : a.Twin h b) (ha : a.Swept h a') (hb : b.Swept h b') : a'.Twin h b' where
  left := ha.fit ht.left
  right := hb.fit ht.right
  maxDepth := by rw [ha.config, hb.config, ht.maxDepth]
  nextTag := by rw [ha.nextTag, hb.nextTag, ht.nextTag]
  nextData := by rw [ha.nextData, hb.nextData, ht.nextData]
  living e hl := by rw [ha.living ht.left hl, hb.living ht.right hl, ht.living e hl]

/-- What is found under a living path is found wherever the living entries are. -/
theorem get?_of_living
    (hl : ∀ e, Level.living h.alive e = true → a.canonical.root.stored? e.1 = some e.2 →
      b.canonical.root.stored? e.1 = some e.2)
    {path : List Key} (hpath : path.all (·.alive h.alive) = true) {v : Value}
    (hv : a.canonical.root.get? h.alive path = some v) :
    b.canonical.root.get? h.alive path = some v := by
  obtain ⟨held, hs, hload⟩ := Option.bind_eq_some_iff.mp hv
  have hheld : held.alive h.alive = true := by
    unfold Stored.load at hload
    split at hload
    · assumption
    · cases hload
  have hliving : Level.living h.alive (path, held) = true := Bool.and_eq_true_iff.mpr ⟨hpath, hheld⟩
  exact Option.bind_eq_some_iff.mpr ⟨held, hl _ hliving hs, hload⟩

/-- Twins have the same under a living path. -/
theorem Twin.get?_eq (ht : a.Twin h b) {path : List Key}
    (hpath : path.all (·.alive h.alive) = true) :
    a.canonical.root.get? h.alive path = b.canonical.root.get? h.alive path :=
  Option.ext fun _ => ⟨get?_of_living (fun e hl => (ht.living e hl).mp) hpath,
    get?_of_living (fun e hl => (ht.living e hl).mpr) hpath⟩

/-- A sweep leaves what is found under a living path. -/
theorem Swept.get? (hs : a.Swept h a') (ha : a.Fit h) {path : List Key}
    (hpath : path.all (·.alive h.alive) = true) {v : Value}
    (hv : a.canonical.root.get? h.alive path = some v) :
    a'.canonical.root.get? h.alive path = some v :=
  get?_of_living (fun _ hl => (hs.living ha hl).mpr) hpath hv

/-- What is found in a canonical store is an instance in hand, under its own path. -/
theorem Fit.get? (ha : a.Fit h) {path : List Key} {v : Value}
    (hv : a.canonical.root.get? h.alive path = some v) :
    ∃ id, v = .inst id ∧ h.Proper v ∧ h.Under id path := by
  obtain ⟨held, hs, hload⟩ := Option.bind_eq_some_iff.mp hv
  obtain ⟨id, rfl, hu⟩ := ha.weak path held hs
  unfold Stored.load at hload
  split at hload
  · next halive =>
    cases hload
    exact ⟨id, rfl, hu.known.proper halive, hu⟩
  · cases hload

/-- An instance is found under one path only. -/
theorem Fit.path_eq (ha : a.Fit h) {path path' : List Key} {v : Value}
    (hv : a.canonical.root.get? h.alive path = some v)
    (hv' : a.canonical.root.get? h.alive path' = some v) : path = path' := by
  obtain ⟨id, rfl, hin, hu⟩ := ha.get? hv
  obtain ⟨_, ⟨⟩, -, hu'⟩ := ha.get? hv'
  obtain ⟨o, ho, -⟩ := hin id rfl
  obtain ⟨tag, values, rfl, rfl⟩ := hu.fields o ho
  obtain ⟨tag', values', hfields, rfl⟩ := hu'.fields _ ho
  cases hfields
  rfl

/-- Twins count the same living instances. -/
theorem Twin.count_eq (ht : a.Twin h b) : a.canonical.count h = b.canonical.count h := by
  have hnodup : ∀ {a : Registry}, a.Fit h →
      (a.canonical.root.entries.filter (Level.living h.alive)).Nodup := fun ha =>
    ((Level.nodup_paths ha.distinct).of_map _).filter _
  have hmem : ∀ e, e ∈ a.canonical.root.entries.filter (Level.living h.alive) ↔
      e ∈ b.canonical.root.entries.filter (Level.living h.alive) := by
    rintro ⟨path, held⟩
    rw [List.mem_filter, List.mem_filter, Level.mem_entries ht.left.distinct,
      Level.mem_entries ht.right.distinct]
    exact and_congr_left fun hl => ht.living (path, held) hl
  have hperm := (List.perm_ext_iff_of_nodup (hnodup ht.left) (hnodup ht.right)).mpr hmem
  unfold Store.count
  rw [Level.countLive_eq, Level.countLive_eq]
  exact hperm.length_eq

theorem Fit.learn (ha : a.Fit h) {id : ObjectId} {path : List Key} (hpath : path ≠ [])
    (hu : h.Under id path) (hmade : Level.Made h (path, .weak (.inst id))) :
    (World.Registry.learn id path a).Fit h := by
  have hstored : ∀ q held, (World.Registry.learn id path a).canonical.root.stored? q = some held →
      q = path ∧ held = .weak (.inst id) ∨ a.canonical.root.stored? q = some held := by
    intro q held hs
    rw [World.Registry.learn, Level.stored?_insert _ _ _ _ hpath] at hs
    split at hs
    · next hq => exact .inl ⟨hq, (Option.some.inj hs).symm⟩
    · exact .inr hs
  refine ⟨ha.retention, ha.distinct.insert _ _, fun q held hs => ?_, fun q held hs => ?_⟩
  · rcases hstored q held hs with ⟨rfl, rfl⟩ | hs
    · exact ⟨_, rfl, hu⟩
    · exact ha.weak q held hs
  · rcases hstored q held hs with ⟨rfl, rfl⟩ | hs
    · exact hmade
    · exact ha.made q held hs

/-- Twins stay twins when both learn one instance. -/
theorem Twin.learn (ht : a.Twin h b) {id : ObjectId} {path : List Key} (hpath : path ≠ [])
    (hu : h.Under id path) (hmade : Level.Made h (path, .weak (.inst id))) :
    (World.Registry.learn id path a).Twin h (World.Registry.learn id path b) := by
  refine ⟨ht.left.learn hpath hu hmade, ht.right.learn hpath hu hmade, ht.maxDepth, ht.nextTag,
    ht.nextData, fun e hl => ?_⟩
  simp only [World.Registry.learn, Level.stored?_insert _ _ _ _ hpath]
  split
  · exact Iff.rfl
  · exact ht.living e hl

end

end Registry

end OpenVariants

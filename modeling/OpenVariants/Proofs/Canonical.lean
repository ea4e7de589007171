import OpenVariants.Proofs.Key
import OpenVariants.Proofs.Level
import OpenVariants.Proofs.Client

/-! Canonical instances.

The canonical store of a registry and the heap know each other: a living instance is
stored under the path of its tag and fields, in the registry of its tag, and what is
stored there is that instance or a dead one (`World.Canonical`). The path of a living
instance cannot die, since the instance owns its fields; so no sweep loses it, and an
insertion only ever takes the place of a dead one. -/
namespace OpenVariants

namespace World

/-- The tags declared in a registry, in order. -/
def tagsOf (declared : List (RegistryId × Tag)) (r : RegistryId) : List Tag :=
  (declared.filter fun p => p.1 == r).map (·.2)

/-- What a registry knows: for every path an instance that has it, or one that died. -/
structure Knows (declared : List (RegistryId × Tag)) (h : Heap) (r : RegistryId)
    (reg : Registry) : Prop where
  retention : reg.canonical.retention = .weak
  distinct : reg.canonical.root.Distinct
  stored : ∀ path s, reg.canonical.root.stored? path = some s →
    ∃ id, s = .weak (.inst id) ∧ id < h.size ∧ ∀ o, h.object? id = some o →
      ∃ tag values, o = .content (.fields tag values) ∧ (r, tag) ∈ declared ∧
        path = canonicalPath tag values

/-- A registry gives out its tag ids in order. -/
structure Numbers (declared : List (RegistryId × Tag)) (r : RegistryId) (reg : Registry) : Prop where
  next : reg.nextTag = UInt32.ofNat (tagsOf declared r).length
  ids : ∀ i tag, (tagsOf declared r)[i]? = some tag → tag.id = UInt32.ofNat i

/-- The heap and the registries of a world in which the given tags were declared. -/
structure Canonical (declared : List (RegistryId × Tag)) (w : World) : Prop where
  heap : w.heap.Sound
  registries : ∀ r reg, w.registries[r]? = some reg →
    Knows declared w.heap r reg ∧ Numbers declared r reg
  tags : ∀ p ∈ declared, p.1 < w.registries.size ∧ p.2.serial < w.serials
  serials : ∀ p ∈ declared, ∀ q ∈ declared, p.2.serial = q.2.serial → p = q
  instances : ∀ id tag values, w.heap.object? id = some (.content (.fields tag values)) →
    ∃ r reg, (r, tag) ∈ declared ∧ w.registries[r]? = some reg ∧
      reg.canonical.root.stored? (canonicalPath tag values) = some (.weak (.inst id))

end World

/-! ### Instances -/

theorem Heap.instance?_inst {h : Heap} {id : ObjectId} {tag : Tag} {values : List Value} :
    h.instance? (.inst id) = some (tag, values) ↔
      h.object? id = some (.content (.fields tag values)) := by
  unfold instance? content?
  simp only [Value.object?, Option.bind_some]
  cases h.object? id with
  | none => simp
  | some o =>
    cases o with
    | content c => cases c <;> simp
    | _ => simp

theorem Heap.instance?_eq_some {h : Heap} {v : Value} {tag : Tag} {values : List Value} :
    h.instance? v = some (tag, values) ↔
      ∃ id, v = .inst id ∧ h.object? id = some (.content (.fields tag values)) := by
  refine ⟨fun hv => ?_, ?_⟩
  · cases v with
    | inst id => exact ⟨id, rfl, instance?_inst.mp hv⟩
    | _ => simp [instance?] at hv
  · rintro ⟨id, rfl, ho⟩
    exact instance?_inst.mpr ho

theorem Heap.content?_of_instance {h : Heap} {v : Value} {tag : Tag} {values : List Value}
    (hv : h.instance? v = some (tag, values)) :
    ∃ id, v = .inst id ∧ h.content? v = some (.fields tag values) := by
  obtain ⟨id, rfl, ho⟩ := instance?_eq_some.mp hv
  exact ⟨id, rfl, by simp [content?, Value.object?, ho]⟩

theorem Heap.proper_inst {h : Heap} {id : ObjectId} {tag : Tag} {values : List Value}
    (ho : h.object? id = some (.content (.fields tag values))) : h.Proper (.inst id) :=
  proper_reference ho

theorem Heap.proper_inst_alone {h : Heap} {id : ObjectId} {tag : Tag} {values : List Value}
    (ho : h.object? id = some (.content (.fields tag values))) : ∀ a ∈ [Value.inst id], h.Proper a :=
  List.forall_mem_singleton.mpr (proper_inst ho)

namespace World

/-- The path of living fields is alive. -/
theorem canonicalPath_alive {h : Heap} (tag : Tag) {fields : List Value}
    (hf : ∀ v ∈ fields, h.Proper v) : (canonicalPath tag fields).all (·.alive h.alive) = true := by
  simp only [canonicalPath, List.all_cons, Key.alive, Bool.true_and, List.all_map, List.all_eq_true]
  exact fun v hv => (hf v hv).key_alive

/-! ### Two living instances -/

variable {declared : List (RegistryId × Tag)} {w : World}

/-- Living instances of one tag on the same fields are one instance. -/
theorem Canonical.eq_of_same (hc : w.Canonical declared) {i j : ObjectId} {tag tag' : Tag}
    {values values' : List Value}
    (hi : w.heap.object? i = some (.content (.fields tag values)))
    (hj : w.heap.object? j = some (.content (.fields tag' values')))
    (htag : tag.serial = tag'.serial)
    (hsame : Value.AllSame values values') : i = j := by
  obtain ⟨r, reg, hr, hreg, hstored⟩ := hc.instances i tag values hi
  obtain ⟨r', reg', hr', hreg', hstored'⟩ := hc.instances j tag' values' hj
  cases hc.serials _ hr _ hr' htag
  have hproper := fun v hv => (hc.heap i _ hi v hv).1
  have hproper' := fun v hv => (hc.heap j _ hj v hv).1
  have hpath : values.map Key.ofValue = values'.map Key.ofValue :=
    (Heap.allSame_iff hproper hproper').mp hsame
  rw [hreg] at hreg'
  cases hreg'
  rw [canonicalPath, hpath, ← canonicalPath, hstored'] at hstored
  cases hstored
  rfl

/-- An instance with the serial of a declared tag has that tag. -/
theorem Canonical.tag_of_same (hc : w.Canonical declared) {r : RegistryId} {t tag : Tag}
    (ht : (r, t) ∈ declared) {v : Value} {values : List Value}
    (hinst : w.heap.instance? v = some (tag, values)) (hsame : tag.same t = true) : tag = t := by
  obtain ⟨id, rfl, ho⟩ := Heap.instance?_eq_some.mp hinst
  obtain ⟨r', _, hknown, _, _⟩ := hc.instances id tag values ho
  exact congrArg Prod.snd (hc.serials _ hknown _ ht (by simpa [Tag.same] using hsame))

/-- With fewer tags than ids, a tag of a registry is known by its id. -/
theorem Canonical.tag_of_id (hc : w.Canonical declared) {r : RegistryId} {tag tag' : Tag}
    (hcount : (tagsOf declared r).length < UInt32.size) (ht : (r, tag) ∈ declared)
    (ht' : (r, tag') ∈ declared) (hid : tag.id = tag'.id) : tag = tag' := by
  have hmem : ∀ {t : Tag}, (r, t) ∈ declared → t ∈ tagsOf declared r := by
    intro t h
    exact List.mem_map.mpr ⟨(r, t), List.mem_filter.mpr ⟨h, by simp⟩, rfl⟩
  obtain ⟨i, hi⟩ := List.mem_iff_getElem?.mp (hmem ht)
  obtain ⟨j, hj⟩ := List.mem_iff_getElem?.mp (hmem ht')
  obtain ⟨reg, hreg⟩ : ∃ reg, w.registries[r]? = some reg :=
    ⟨_, Array.getElem?_eq_getElem (hc.tags _ ht).1⟩
  have hn := (hc.registries r reg hreg).2
  rw [hn.ids i tag hi, hn.ids j tag' hj] at hid
  have hlt : i < (tagsOf declared r).length := (List.getElem?_eq_some_iff.mp hi).1
  have hlt' : j < (tagsOf declared r).length := (List.getElem?_eq_some_iff.mp hj).1
  have hij := congrArg UInt32.toNat hid
  rw [UInt32.toNat_ofNat_of_lt' (Nat.lt_trans hlt hcount),
    UInt32.toNat_ofNat_of_lt' (Nat.lt_trans hlt' hcount)] at hij
  rw [hij, hj] at hi
  cases hi
  rfl

/-! ### What leaves the registries as they are -/

/-- Only the heap, the registries and the serials matter. -/
theorem Canonical.congr (hc : w.Canonical declared) {w' : World} (hheap : w'.heap = w.heap)
    (hregistries : w'.registries = w.registries) (hserials : w'.serials = w.serials) :
    w'.Canonical declared where
  heap := by rw [hheap]; exact hc.heap
  registries := by rw [hheap, hregistries]; exact hc.registries
  tags := by rw [hregistries, hserials]; exact hc.tags
  serials := hc.serials
  instances := by rw [hheap, hregistries]; exact hc.instances

theorem Knows.later {h h' : Heap} {r : RegistryId} {reg : Registry} (hk : Knows declared h r reg)
    (hb : h.Before h') : Knows declared h' r reg := by
  refine { hk with stored := fun path s hstored => ?_ }
  obtain ⟨id, rfl, hlt, hlive⟩ := hk.stored path s hstored
  refine ⟨id, rfl, Nat.lt_of_lt_of_le hlt hb.size, fun o ho => ?_⟩
  exact hlive o (hb.object id o hlt ho)

/-- A sound heap that comes after, with no instance that was not there before. -/
theorem Canonical.withHeap (hc : w.Canonical declared) {h : Heap} (hs : h.Sound)
    (hb : w.heap.Before h)
    (hold : ∀ id tag values, h.object? id = some (.content (.fields tag values)) →
      id < w.heap.size) : ({w with heap := h} : World).Canonical declared where
  heap := hs
  registries r reg hreg := (hc.registries r reg hreg).imp_left fun hk => hk.later hb
  tags := hc.tags
  serials := hc.serials
  instances id tag values ho :=
    hc.instances id tag values (hb.object id _ (hold id tag values ho) ho)

theorem Canonical.push (hc : w.Canonical declared) (o : Object)
    (hin : ∀ v ∈ o.children, w.heap.Proper v)
    (hplain : ∀ tag values, o ≠ .content (.fields tag values)) :
    (w.push o).Canonical declared := by
  refine hc.withHeap (hc.heap.push o hin) (Heap.before_push _ o) fun id tag values ho => ?_
  rw [Heap.object?_push] at ho
  split at ho
  · exact absurd (Option.some.inj ho) (hplain tag values)
  · exact Heap.lt_size ho

theorem Canonical.release (hc : w.Canonical declared) {h : Heap} {kept : List Value}
    (hr : w.heap.Retains h kept) : ({w with heap := h} : World).Canonical declared := by
  refine hc.withHeap (hc.heap.retains hr) hr.before fun id tag values ho => ?_
  exact Heap.lt_size (hr.object id _ ho)

theorem Canonical.addRegistry (hc : w.Canonical declared) (config : Config) :
    (w.addRegistry config).2.Canonical declared where
  heap := hc.heap
  registries r reg hreg := by
    simp only [World.addRegistry] at hreg ⊢
    rw [Array.getElem?_push] at hreg
    split at hreg
    · next hr =>
      cases hreg
      have hnone : tagsOf declared r = [] := by
        rw [tagsOf, List.map_eq_nil_iff, List.filter_eq_nil_iff]
        intro p hp heq
        exact Nat.ne_of_lt (hc.tags p hp).1 ((beq_iff_eq.mp heq).trans hr)
      exact ⟨⟨rfl, trivial, by simp⟩, by simp [hnone], by simp [hnone]⟩
    · exact hc.registries r reg hreg
  tags p hp := by
    have := hc.tags p hp
    simp only [World.addRegistry, Array.size_push]
    exact ⟨Nat.lt_succ_of_lt this.1, this.2⟩
  serials := hc.serials
  instances id tag values ho := by
    obtain ⟨r, reg, hr, hreg, hstored⟩ := hc.instances id tag values ho
    refine ⟨r, reg, hr, ?_, hstored⟩
    simp only [World.addRegistry]
    rw [Array.getElem?_push, if_neg (Nat.ne_of_lt (hc.tags _ hr).1)]
    exact hreg

/-! ### Sweeps -/

theorem registries_updateRegistry (w : World) (r i : RegistryId) (change : Registry → Registry) :
    (w.updateRegistry r change).registries[i]? =
      if i = r then (w.registries[i]?).map change else w.registries[i]? := by
  simp only [updateRegistry]
  rw [Array.getElem?_modify]
  by_cases h : i = r
  · simp [h]
  · simp [h, Ne.symm h]

/-- Only what a change does to the registry that is there matters. -/
theorem updateRegistry_congr {w : World} {r : RegistryId} {reg : Registry}
    {f g : Registry → Registry} (hreg : w.registries[r]? = some reg) (h : f reg = g reg) :
    w.updateRegistry r f = w.updateRegistry r g := by
  have : w.registries.modify r f = w.registries.modify r g := by
    apply Array.ext_getElem?
    intro i
    rw [Array.getElem?_modify, Array.getElem?_modify]
    by_cases hir : r = i
    · subst hir
      simp [hreg, h]
    · simp [hir]
  simp only [updateRegistry, this]

theorem updateRegistry_updateRegistry (w : World) (r : RegistryId) (f g : Registry → Registry) :
    (w.updateRegistry r f).updateRegistry r g = w.updateRegistry r (g ∘ f) := by
  have : (w.registries.modify r f).modify r g = w.registries.modify r (g ∘ f) := by
    apply Array.ext_getElem?
    intro i
    simp only [Array.getElem?_modify]
    by_cases h : r = i
    · simp [h]
    · simp [h]
  simp only [updateRegistry, this]

/-- The registries of `w'` are those of `w`, perhaps counted and swept. -/
structure Swept (w w' : World) : Prop where
  heap : w'.heap = w.heap
  serials : w.serials ≤ w'.serials
  size : w'.registries.size = w.registries.size
  registries : ∀ (r : RegistryId) (reg : Registry), w.registries[r]? = some reg →
    ∃ reg' : Registry, w'.registries[r]? = some reg' ∧ reg'.nextTag = reg.nextTag ∧
    (reg'.canonical = reg.canonical ∨ reg'.canonical = reg.canonical.purged w.heap)

theorem Swept.refl (w : World) : w.Swept w :=
  ⟨rfl, Nat.le_refl _, rfl, fun _ reg hreg => ⟨reg, hreg, rfl, .inl rfl⟩⟩

theorem swept_updateRegistry (w : World) (r : RegistryId) (change : Registry → Registry)
    (hc : ∀ reg, (change reg).nextTag = reg.nextTag ∧
      ((change reg).canonical = reg.canonical ∨
        (change reg).canonical = reg.canonical.purged w.heap)) :
    w.Swept (w.updateRegistry r change) where
  heap := rfl
  serials := Nat.le_refl _
  size := by simp [updateRegistry]
  registries i reg hreg := by
    rw [registries_updateRegistry, hreg]
    by_cases h : i = r
    · exact ⟨change reg, by simp [h], hc reg⟩
    · exact ⟨reg, by simp [h], rfl, .inl rfl⟩

theorem sweep_swept (w : World) (r : RegistryId) : w.Swept (w.sweep r) :=
  swept_updateRegistry w r _ fun _ => ⟨rfl, .inr rfl⟩

theorem countFresh_swept (w : World) (r : RegistryId) : w.Swept (w.countFresh r) := by
  unfold countFresh
  split
  · exact Swept.refl w
  · next reg hreg =>
    dsimp only
    split
    · exact Swept.refl w
    · split
      · rw [sweep, updateRegistry_updateRegistry]
        exact swept_updateRegistry w r _ fun _ => ⟨rfl, .inr rfl⟩
      · exact swept_updateRegistry w r _ fun _ => ⟨rfl, .inl rfl⟩

/-- Counting and sweeping change registries alone. -/
theorem countFresh_frame (w : World) (r : RegistryId) :
    ∃ registries, w.countFresh r = {w with registries} := by
  unfold countFresh
  split
  · exact ⟨w.registries, rfl⟩
  · dsimp only
    split
    · exact ⟨w.registries, rfl⟩
    · split <;> exact ⟨_, rfl⟩

/-- Construction makes one instance at most, and else changes registries alone. -/
theorem canonicalize_frame (w : World) (r : RegistryId) (tag : Tag) (fields : List Value) :
    ∃ registries, (w.canonicalize r tag fields).2 = {w with registries} ∨
      (w.canonicalize r tag fields).2 =
        {w.push (.content (.fields tag fields)) with registries} := by
  unfold canonicalize
  dsimp only
  split
  · exact ⟨w.registries, .inr rfl⟩
  · split
    · exact ⟨w.registries, .inl rfl⟩
    · obtain ⟨registries, h⟩ := countFresh_frame _ r
      exact ⟨registries, .inr h⟩

/-- What a registry knew it knows after a sweep. -/
theorem Knows.purged {h : Heap} {r : RegistryId} {reg reg' : Registry}
    (hk : Knows declared h r reg)
    (hp : reg'.canonical = reg.canonical.purged h) : Knows declared h r reg' where
  retention := by rw [hp]; exact hk.retention
  distinct := by rw [hp]; exact hk.distinct.purged _
  stored path s hs := by
    rw [hp] at hs
    simp only [Store.purged, Store.Level.stored?_purged _ hk.distinct] at hs
    split at hs
    · exact hk.stored path s (Option.eq_some_of_filter_eq_some hs)
    · cases hs

/-- A sweep leaves the entries of living instances. -/
theorem Canonical.swept (hc : w.Canonical declared) {w' : World} (hw : w.Swept w') :
    w'.Canonical declared where
  heap := by rw [hw.heap]; exact hc.heap
  registries r reg' hreg' := by
    have hlt : r < w.registries.size := by
      rw [← hw.size]
      exact (Array.getElem?_eq_some_iff.mp hreg').1
    obtain ⟨reg'', hreg'', hnext, hcanonical⟩ :=
      hw.registries r _ (Array.getElem?_eq_getElem hlt)
    rw [hreg'] at hreg''
    cases hreg''
    obtain ⟨hk, hn⟩ := hc.registries r _ (Array.getElem?_eq_getElem hlt)
    refine ⟨?_, hnext.trans hn.next, hn.ids⟩
    rw [hw.heap]
    rcases hcanonical with hsame | hpurged
    · exact ⟨hsame ▸ hk.retention, hsame ▸ hk.distinct, hsame ▸ hk.stored⟩
    · exact hk.purged hpurged
  tags p hp := by
    rw [hw.size]
    exact ⟨(hc.tags p hp).1, Nat.lt_of_lt_of_le (hc.tags p hp).2 hw.serials⟩
  serials := hc.serials
  instances id tag values ho := by
    rw [hw.heap] at ho
    obtain ⟨r, reg, hr, hreg, hstored⟩ := hc.instances id tag values ho
    obtain ⟨reg', hreg', _, hcanonical⟩ := hw.registries r reg hreg
    refine ⟨r, reg', hr, hreg', ?_⟩
    rcases hcanonical with hsame | hpurged
    · rw [hsame]
      exact hstored
    · -- the path is alive because the instance owns its fields
      have hpath : (canonicalPath tag values).all (·.alive w.heap.alive) = true :=
        canonicalPath_alive tag fun v hv => (hc.heap id _ ho v hv).1
      have hlive : (Store.Stored.weak (.inst id)).alive w.heap.alive = true :=
        (Heap.proper_inst ho).holds
      rw [hpurged, Store.purged, Store.Level.stored?_purged _ (hc.registries r reg hreg).1.distinct,
        if_pos hpath, hstored, Option.filter_some, if_pos hlive]

/-! ### Construction -/

/-- What construction on a tag and fields gives: an instance under their path, in a
world where all that was living lives on. -/
structure Constructed (declared : List (RegistryId × Tag)) (w : World) (r : RegistryId) (tag : Tag)
    (fields : List Value) (x : Value) (w' : World) : Prop where
  canonical : w'.Canonical declared
  extends_ : w.heap.Extends w'.heap
  before : w.heap.Before w'.heap
  serials : w.serials ≤ w'.serials
  size : w'.registries.size = w.registries.size
  inst : ∃ tag' values, w'.heap.instance? x = some (tag', values) ∧ (r, tag') ∈ declared ∧
    canonicalPath tag' values = canonicalPath tag fields

/-- A registry that knows one more instance. -/
def Registry.learn (id : ObjectId) (path : List Key) (reg : Registry) : Registry :=
  {reg with canonical :=
    {reg.canonical with root := reg.canonical.root.insert (.weak (.inst id)) path}}

theorem Knows.learn {h : Heap} {r : RegistryId} {reg : Registry} (hk : Knows declared h r reg)
    {id : ObjectId} {tag : Tag} {fields : List Value}
    (ho : h.object? id = some (.content (.fields tag fields))) (ht : (r, tag) ∈ declared) :
    Knows declared h r (Registry.learn id (canonicalPath tag fields) reg) where
  retention := hk.retention
  distinct := hk.distinct.insert _ _
  stored path s hs := by
    simp only [Registry.learn] at hs
    rw [Store.Level.stored?_insert _ _ _ _ (by simp [canonicalPath])] at hs
    split at hs
    · next hpath =>
      cases hs
      refine ⟨id, rfl, Heap.lt_size ho, fun o ho' => ?_⟩
      rw [ho] at ho'
      exact ⟨tag, fields, (Option.some.inj ho').symm, ht, hpath⟩
    · exact hk.stored path s hs

/-- A world with a new instance that its registry knows. -/
def withInstance (w : World) (r : RegistryId) (tag : Tag) (fields : List Value) : World :=
  (w.push (.content (.fields tag fields))).updateRegistry r
    (Registry.learn w.nextObject (canonicalPath tag fields))

theorem registries_withInstance (w : World) (r i : RegistryId) (tag : Tag) (fields : List Value) :
    (w.withInstance r tag fields).registries[i]? =
      if i = r then (w.registries[i]?).map (Registry.learn w.nextObject (canonicalPath tag fields))
      else w.registries[i]? :=
  registries_updateRegistry _ _ _ _

/-- A new instance under a path that has no living one. -/
theorem Canonical.withInstance (hc : w.Canonical declared) {r : RegistryId} {tag : Tag}
    {fields : List Value} {reg : Registry} (ht : (r, tag) ∈ declared)
    (hf : ∀ v ∈ fields, w.heap.Proper v) (hreg : w.registries[r]? = some reg)
    (hfree : reg.canonical.root.get? w.heap.alive (canonicalPath tag fields) = none) :
    (w.withInstance r tag fields).Canonical declared where
  heap := hc.heap.push _ hf
  registries i reg' hreg' := by
    rw [registries_withInstance] at hreg'
    have hbefore := Heap.before_push w.heap (.content (.fields tag fields))
    split at hreg'
    · next hir =>
      subst hir
      rw [hreg] at hreg'
      cases hreg'
      obtain ⟨hk, hn⟩ := hc.registries i reg hreg
      refine ⟨(hk.later hbefore).learn ?_ ht, hn.next, hn.ids⟩
      exact (Heap.object?_push _ _ _).trans (if_pos rfl)
    · exact (hc.registries i reg' hreg').imp_left fun hk => hk.later hbefore
  tags p hp := by
    simp only [World.withInstance, updateRegistry, Array.size_modify]
    exact hc.tags p hp
  serials := hc.serials
  instances id tag' values ho := by
    change (w.heap.push _).object? id = _ at ho
    rw [Heap.object?_push] at ho
    have hpath : canonicalPath tag fields ≠ [] := by simp [canonicalPath]
    have hlearned : (w.withInstance r tag fields).registries[r]? =
        some (Registry.learn w.nextObject (canonicalPath tag fields) reg) := by
      rw [registries_withInstance, if_pos rfl, hreg]
      rfl
    split at ho
    · next hid =>
      cases ho
      refine ⟨r, _, ht, hlearned, ?_⟩
      rw [Registry.learn, Store.Level.stored?_insert _ _ _ _ hpath, if_pos rfl, hid]
      rfl
    · obtain ⟨i, reg', hi, hreg', hstored⟩ := hc.instances id tag' values ho
      by_cases hir : i = r
      · subst hir
        rw [hreg] at hreg'
        cases hreg'
        -- a path with a living instance is not the free one
        have hne : canonicalPath tag' values ≠ canonicalPath tag fields := by
          intro heq
          have hlive : (Store.Stored.weak (.inst id)).alive w.heap.alive = true :=
            (Heap.proper_inst ho).holds
          rw [← heq, Store.Level.get?, hstored, Option.bind_some, Store.Stored.load,
            if_pos hlive] at hfree
          cases hfree
        refine ⟨i, _, hi, hlearned, ?_⟩
        rw [Registry.learn, Store.Level.stored?_insert _ _ _ _ hpath, if_neg hne]
        exact hstored
      · refine ⟨i, reg', hi, ?_, hstored⟩
        rw [registries_withInstance, if_neg hir]
        exact hreg'

/-- Construction looks the path up, and makes an instance if nothing living is there. -/
theorem canonicalize_eq {r : RegistryId} {reg : Registry} (hreg : w.registries[r]? = some reg)
    (hweak : reg.canonical.retention = .weak) (tag : Tag) (fields : List Value) :
    w.canonicalize r tag fields =
      match reg.canonical.root.get? w.heap.alive (canonicalPath tag fields) with
      | some v => (v, w)
      | none => (.inst w.nextObject, (w.withInstance r tag fields).countFresh r) := by
  have hpath : canonicalPath tag fields ≠ [] := by simp [canonicalPath]
  have hlearn := updateRegistry_congr (w := w.push (.content (.fields tag fields))) hreg
    (f := fun reg' => {reg' with canonical := {reg.canonical with
      root := (reg.canonical.root.insert (.weak (.inst w.nextObject)) (canonicalPath tag fields))}})
    (g := Registry.learn w.nextObject (canonicalPath tag fields)) rfl
  unfold World.canonicalize
  simp only [hreg, Store.intern, Store.stored, hweak, Store.Level.intern_eq _ _ _ _ hpath]
  cases reg.canonical.root.get? w.heap.alive (canonicalPath tag fields) with
  | some v => rfl
  | none =>
    rw [withInstance, ← hlearn, ← hweak]

/-- What a registry finds under a path is a living instance that has it. -/
theorem Knows.get? {h : Heap} {r : RegistryId} {reg : Registry} (hk : Knows declared h r reg)
    {path : List Key} {v : Value} (hfound : reg.canonical.root.get? h.alive path = some v) :
    ∃ tag values, h.instance? v = some (tag, values) ∧ (r, tag) ∈ declared ∧
      canonicalPath tag values = path := by
  obtain ⟨s, hs, hload⟩ := Option.bind_eq_some_iff.mp hfound
  obtain ⟨id, rfl, _, hlive⟩ := hk.stored _ s hs
  unfold Store.Stored.load at hload
  split at hload
  · next halive =>
    cases hload
    obtain ⟨o, ho⟩ := Heap.alive_iff.mp (Heap.holds_iff.mp halive id rfl)
    obtain ⟨tag, values, rfl, ht, hpath⟩ := hlive o ho
    exact ⟨tag, values, Heap.instance?_inst.mpr ho, ht, hpath.symm⟩
  · cases hload

/-- Construction gives an instance under the path, and no living one dies. -/
theorem Canonical.canonicalize (hc : w.Canonical declared) {r : RegistryId} {tag : Tag}
    {fields : List Value} (ht : (r, tag) ∈ declared) (hf : ∀ v ∈ fields, w.heap.Proper v) :
    Constructed declared w r tag fields (w.canonicalize r tag fields).1
      (w.canonicalize r tag fields).2 := by
  obtain ⟨reg, hreg⟩ : ∃ reg, w.registries[r]? = some reg :=
    ⟨_, Array.getElem?_eq_getElem (hc.tags _ ht).1⟩
  have hk := (hc.registries r reg hreg).1
  rw [canonicalize_eq hreg hk.retention]
  cases hfound : reg.canonical.root.get? w.heap.alive (canonicalPath tag fields) with
  | some v =>
    exact ⟨hc, Heap.Extends.refl _, Heap.Before.refl _, Nat.le_refl _, rfl, hk.get? hfound⟩
  | none =>
    have hswept := countFresh_swept (w.withInstance r tag fields) r
    have hheap : ((w.withInstance r tag fields).countFresh r).heap =
        w.heap.push (.content (.fields tag fields)) := hswept.heap
    refine ⟨(hc.withInstance ht hf hreg hfound).swept hswept, ?_, ?_, hswept.serials, ?_, tag, fields,
      ?_, ht, rfl⟩
    · rw [hheap]
      exact Heap.extends_push _ _
    · rw [hheap]
      exact Heap.before_push _ _
    · rw [hswept.size, World.withInstance, updateRegistry, Array.size_modify]
      rfl
    · rw [hheap, Heap.instance?_inst, Heap.object?_push, nextObject, if_pos rfl]

end World

end OpenVariants

import OpenVariants.Proofs.Holder
import OpenVariants.Proofs.Living
import OpenVariants.Proofs.Purging

/-! How much garbage a canonical store has.

A registry counts the instances it makes, and sweeps its store after every
`purgeInterval`-th. Right after a sweep the store has the living instances alone, and it
gains one entry with each instance made; nothing else adds any. So what is stored, dead
entries included, is never more than what was alive at the last sweep that counting set
off and what was made since.

The moments of a run, those in the middle of a declaration included, are kept in a ledger
for one registry (`Ledger.Step`): it notes what was made and what was alive at the last
sweep. Every step of a program is a number of its steps (`Ledger.Kept.program`). -/
namespace OpenVariants

open Store (Level)

namespace Store.Level

/-! ### Entries counted -/

/-- An insertion adds one entry at most. -/
theorem countAll_insert_le {l : Level} (hl : l.Distinct) (s : Stored) {path : List Key}
    (hp : path ≠ []) : (l.insert s path).countAll ≤ l.countAll + 1 := by
  rw [countAll_eq, countAll_eq, ← List.length_cons (a := (path, s))]
  refine (List.subperm_of_subset ((nodup_paths (hl.insert s path)).of_map _) ?_).length_le
  rintro ⟨q, s'⟩ he
  rw [mem_entries (hl.insert s path), stored?_insert _ _ _ _ hp] at he
  split at he
  · next hq =>
    cases he
    rw [hq]
    exact List.mem_cons_self
  · exact List.mem_cons_of_mem _ ((mem_entries hl q s').mpr he)

theorem countAll_purged_le (living : ObjectId → Bool) (l : Level) :
    (l.purged living).countAll ≤ l.countAll := by
  rw [countAll_eq, countAll_eq, entries_purged]
  exact List.length_filter_le _ _

end Store.Level

namespace World

/-! ### Counting and sweeping -/

/-- The living instance that a registry knows for a tag and fields. -/
def found? (r : RegistryId) (tag : Tag) (fields : List Value) (w : World) : Option Value :=
  (w.registries[r]?).bind (·.canonical.root.get? w.heap.alive (canonicalPath tag fields))

/-- A world in which a registry made one more instance. -/
def counted (r : RegistryId) (w : World) : World :=
  w.updateRegistry r fun reg => {reg with fresh := reg.fresh + 1}

theorem countFresh_eq {w : World} {r : RegistryId} {reg : Registry}
    (hreg : w.registries[r]? = some reg) (hinterval : reg.config.purgeInterval ≠ 0) :
    w.countFresh r =
      if (reg.fresh + 1).toNat % reg.config.purgeInterval = 0 then (w.counted r).sweep r
      else w.counted r := by
  have hcounted : (w.updateRegistry r fun reg' => {reg' with fresh := reg.fresh + 1}) =
      w.counted r := updateRegistry_congr hreg rfl
  simp only [countFresh, hreg, hinterval, if_false, hcounted]

variable {declared : List (RegistryId × Tag)} {w w' : World} {r : RegistryId} {reg : Registry}

/-- What is there is given again. -/
theorem canonicalize_found (hreg : w.registries[r]? = some reg)
    (hweak : reg.canonical.retention = .weak) {tag : Tag} {fields : List Value} {x : Value}
    (hfound : w.found? r tag fields = some x) : w.canonicalize r tag fields = (x, w) := by
  rw [found?, hreg] at hfound
  rw [canonicalize_eq hreg hweak, show reg.canonical.root.get? w.heap.alive
    (canonicalPath tag fields) = some x from hfound]

/-- What is not there is made, counted, and perhaps swept after. -/
theorem canonicalize_new (hreg : w.registries[r]? = some reg)
    (hweak : reg.canonical.retention = .weak) {tag : Tag} {fields : List Value}
    (hnew : w.found? r tag fields = none) :
    w.canonicalize r tag fields =
      (.inst w.nextObject, (w.withInstance r tag fields).countFresh r) := by
  rw [found?, hreg] at hnew
  rw [canonicalize_eq hreg hweak, show reg.canonical.root.get? w.heap.alive
    (canonicalPath tag fields) = none from hnew]

/-- A registry with the instance it made. -/
theorem registries_withInstance_self (hreg : w.registries[r]? = some reg) (tag : Tag)
    (fields : List Value) : (w.withInstance r tag fields).registries[r]? =
      some (Registry.learn w.nextObject (canonicalPath tag fields) reg) := by
  rw [registries_withInstance, if_pos rfl, hreg]
  rfl

theorem registries_counted (hreg : w.registries[r]? = some reg) :
    (w.counted r).registries[r]? = some {reg with fresh := reg.fresh + 1} := by
  rw [counted, registries_updateRegistry, if_pos rfl, hreg]
  rfl

theorem registries_sweep (hreg : w.registries[r]? = some reg) :
    (w.sweep r).registries[r]? = some {reg with canonical := reg.canonical.purged w.heap} := by
  rw [sweep, registries_updateRegistry, if_pos rfl, hreg]
  rfl

theorem countFresh_withInstance (hreg : w.registries[r]? = some reg)
    (hinterval : 0 < reg.config.purgeInterval) (tag : Tag) (fields : List Value) :
    (w.withInstance r tag fields).countFresh r =
      if (reg.fresh + 1).toNat % reg.config.purgeInterval = 0 then
        ((w.withInstance r tag fields).counted r).sweep r
      else (w.withInstance r tag fields).counted r := by
  have h := countFresh_eq (registries_withInstance_self hreg tag fields) (Nat.ne_of_gt hinterval)
  exact h

/-! ### Registries left calm -/

/-- A registry made no instance: it counted none and gained no entry. A new registry has
neither. -/
structure Calm (r : RegistryId) (w w' : World) : Prop where
  kept : w'.registries[r]? = none → w.registries[r]? = none
  registry : ∀ reg', w'.registries[r]? = some reg' →
    w.registries[r]? = none ∧ reg'.fresh = 0 ∧ reg'.canonical.root.countAll = 0 ∨
    ∃ reg, w.registries[r]? = some reg ∧ reg'.config = reg.config ∧ reg'.fresh = reg.fresh ∧
      reg'.canonical.root.countAll ≤ reg.canonical.root.countAll

theorem calm_of_registry (h : w'.registries[r]? = w.registries[r]?) : w.Calm r w' :=
  ⟨fun hnone => h ▸ hnone, fun reg' hreg' => .inr ⟨reg', h ▸ hreg', rfl, rfl, Nat.le_refl _⟩⟩

theorem calm_updateRegistry (w : World) (r i : RegistryId) (change : Registry → Registry)
    (hc : ∀ reg, (change reg).config = reg.config ∧ (change reg).fresh = reg.fresh ∧
      (change reg).canonical.root.countAll ≤ reg.canonical.root.countAll) :
    w.Calm r (w.updateRegistry i change) := by
  have h := registries_updateRegistry w i r change
  split at h
  · refine ⟨fun hnone => ?_, fun reg' hreg' => .inr ?_⟩
    · rwa [h, Option.map_eq_none_iff] at hnone
    · rw [h] at hreg'
      obtain ⟨reg, hreg, rfl⟩ := Option.map_eq_some_iff.mp hreg'
      exact ⟨reg, hreg, hc reg⟩
  · exact calm_of_registry h

theorem calm_addRegistry (w : World) (r : RegistryId) (config : Config) :
    w.Calm r (w.addRegistry config).2 := by
  have h : (w.addRegistry config).2.registries[r]? =
      if r = w.registries.size then some {config} else w.registries[r]? := by
    simp only [addRegistry]
    rw [Array.getElem?_push]
  split at h
  · next hr =>
    refine ⟨fun hnone => ?_, fun reg' hreg' => .inl ⟨?_, ?_⟩⟩
    · rw [h] at hnone
      cases hnone
    · rw [hr]
      exact Array.getElem?_size
    · rw [h] at hreg'
      cases hreg'
      exact ⟨rfl, rfl⟩
  · exact calm_of_registry h

theorem calm_withData (w : World) (r i : RegistryId) : w.Calm r (w.withData i) :=
  have h := calm_updateRegistry {w with serials := w.serials + 1} r i
    (fun reg => {reg with nextData := reg.nextData + 1}) fun _ => ⟨rfl, rfl, Nat.le_refl _⟩
  ⟨h.kept, h.registry⟩

theorem calm_withTag (w : World) (r i : RegistryId) : w.Calm r (w.withTag i) :=
  have h := calm_updateRegistry {w with serials := w.serials + 1} r i
    (fun reg => {reg with nextTag := reg.nextTag + 1}) fun _ => ⟨rfl, rfl, Nat.le_refl _⟩
  ⟨h.kept, h.registry⟩

theorem calm_sweep (w : World) (r i : RegistryId) : w.Calm r (w.sweep i) :=
  calm_updateRegistry w r i _ fun _ => ⟨rfl, rfl, Level.countAll_purged_le _ _⟩

theorem registries_countFresh_ne {i : RegistryId} (h : r ≠ i) :
    (w.countFresh i).registries[r]? = w.registries[r]? := by
  unfold countFresh
  split
  · rfl
  · dsimp only
    split
    · rfl
    · split
      · rw [sweep, updateRegistry_updateRegistry, registries_updateRegistry, if_neg h]
      · rw [registries_updateRegistry, if_neg h]

/-- A construction leaves the other registries alone, and its own one too if the instance
is there. -/
theorem Canonical.calm_canonicalize (hc : w.Canonical declared) {i : RegistryId} {tag : Tag}
    (ht : (i, tag) ∈ declared) {fields : List Value}
    (hold : r ≠ i ∨ (w.found? i tag fields).isSome) :
    w.Calm r (w.canonicalize i tag fields).2 := by
  obtain ⟨reg, hreg⟩ : ∃ reg, w.registries[i]? = some reg :=
    ⟨_, Array.getElem?_eq_getElem (hc.tags _ ht).1⟩
  have hweak := (hc.registries i reg hreg).1.retention
  cases hfound : w.found? i tag fields with
  | some x =>
    rw [canonicalize_found hreg hweak hfound]
    exact calm_of_registry rfl
  | none =>
    have hne : r ≠ i := hold.resolve_right (by simp [hfound])
    rw [canonicalize_new hreg hweak hfound]
    refine calm_of_registry ?_
    rw [registries_countFresh_ne hne, registries_withInstance, if_neg hne]

end World

/-! ### The ledger of a registry -/

/-- A world at some moment, with the tags declared so far, and what is noted of one
registry: how many instances it made; and of the last sweep that counting set off, how
many instances were alive then and how many were made since. -/
structure Ledger where
  world : World := {}
  declared : List (RegistryId × Tag) := []
  made : Nat := 0
  kept : Nat := 0
  since : Nat := 0

namespace Ledger

/-- How many living instances a registry has. -/
noncomputable def living (declared : List (RegistryId × Tag)) (r : RegistryId) (w : World) : Nat :=
  (Client.living ⟨w, [], declared⟩ r).ncard

/-- What a registry counts when so many instances were made: its counter has 64 bits. -/
def counter (made : Nat) : Nat := made % Config.bound

/-- One more instance was made: every so many of them there is a sweep. -/
noncomputable def make (r : RegistryId) (interval : Nat) (w : World) (l : Ledger) : Ledger :=
  if counter (l.made + 1) % interval = 0 then
    ⟨w, l.declared, l.made + 1, living l.declared r w, 0⟩
  else ⟨w, l.declared, l.made + 1, l.kept, l.since + 1⟩

theorem world_make (r : RegistryId) (interval : Nat) (w : World) (l : Ledger) :
    (l.make r interval w).world = w ∧ (l.make r interval w).declared = l.declared := by
  unfold make
  split <;> exact ⟨rfl, rfl⟩

/-- What happens from one moment to the next. A declaration is several of these: its data
and each of its tags get their numbers, and variants without fields their instances. -/
inductive Step (r : RegistryId) (l : Ledger) : Ledger → Prop
  | registry (config : Config) : Step r l {l with world := (l.world.addRegistry config).2}
  | object (o : Object) (hplain : ∀ tag values, o ≠ .content (.fields tag values))
    (hin : ∀ v ∈ o.children, l.world.heap.Proper v) : Step r l {l with world := l.world.push o}
  | data (i : RegistryId) : Step r l {l with world := l.world.withData i}
  | tag (i : RegistryId) (reg : Registry) (tag : Tag) (hreg : l.world.registries[i]? = some reg)
    (hserial : tag.serial = l.world.serials) (hid : tag.id = reg.nextTag) :
    Step r l {l with world := l.world.withTag i, declared := l.declared ++ [(i, tag)]}
  /-- An instance is given again, or another registry makes one. -/
  | reuse (i : RegistryId) (tag : Tag) (fields : List Value) (ht : (i, tag) ∈ l.declared)
    (hin : ∀ v ∈ fields, l.world.heap.Proper v)
    (hold : r ≠ i ∨ (l.world.found? i tag fields).isSome) :
    Step r l {l with world := (l.world.canonicalize i tag fields).2}
  | make (reg : Registry) (tag : Tag) (fields : List Value)
    (hreg : l.world.registries[r]? = some reg) (ht : (r, tag) ∈ l.declared)
    (hin : ∀ v ∈ fields, l.world.heap.Proper v) (hnew : l.world.found? r tag fields = none) :
    Step r l (l.make r reg.config.purgeInterval (l.world.canonicalize r tag fields).2)
  | purge (i : RegistryId) : Step r l {l with world := l.world.sweep i}
  /-- Values are let go of: any objects may die that no living one refers to. -/
  | release (heap : Heap) (kept : List Value) (hr : l.world.heap.Retains heap kept) :
    Step r l {l with world := {l.world with heap}}
  | other (w : World) (hheap : w.heap = l.world.heap)
    (hregistries : w.registries = l.world.registries) (hserials : w.serials = l.world.serials) :
    Step r l {l with world := w}

/-- Any number of steps. -/
abbrev Steps (r : RegistryId) : Ledger → Ledger → Prop := Relation.ReflTransGen (Step r)

/-- The moments that a run from nothing goes through. -/
def Reachable (r : RegistryId) (l : Ledger) : Prop := Steps r {} l

/-! ### What the ledger bounds -/

/-- What every moment keeps: the registry counted what was made, and stores no more than
was alive at the last sweep and was made since. -/
structure Kept (r : RegistryId) (l : Ledger) : Prop where
  world : l.world.Canonical l.declared
  none : l.world.registries[r]? = none → l.made = 0 ∧ l.kept = 0 ∧ l.since = 0
  registry : ∀ reg, l.world.registries[r]? = some reg → 0 < reg.config.purgeInterval →
    reg.fresh.toNat = counter l.made ∧ l.since = counter l.made % reg.config.purgeInterval ∧
      reg.canonical.root.countAll ≤ l.kept + l.since

variable {r : RegistryId} {l l' : Ledger}

/-- Where no instance was made, the notes stay right. -/
theorem Kept.calm (hk : l.Kept r) {w : World} {declared : List (RegistryId × Tag)}
    (hw : w.Canonical declared) (hcalm : l.world.Calm r w) :
    Kept r {l with world := w, declared} where
  world := hw
  none hnone := hk.none (hcalm.kept hnone)
  registry reg' hreg' hinterval := by
    rcases hcalm.registry reg' hreg' with ⟨hnone, hfresh, hcount⟩ |
      ⟨reg, hreg, hconfig, hfresh, hcount⟩
    · obtain ⟨hmade, hkept, hsince⟩ := hk.none hnone
      exact ⟨by simp [hfresh, hmade, counter], by simp [hmade, hsince, counter], by simp [hcount]⟩
    · rw [hconfig] at hinterval ⊢
      obtain ⟨hmade, hsince, hle⟩ := hk.registry reg hreg hinterval
      exact ⟨hfresh ▸ hmade, hsince, Nat.le_trans hcount hle⟩

theorem succ_mod {m n : Nat} (h : (m + 1) % n ≠ 0) : (m + 1) % n = m % n + 1 := by
  rcases Nat.eq_zero_or_pos n with rfl | hn
  · simp
  · have hlt := Nat.mod_lt m hn
    rw [← Nat.mod_add_mod] at h ⊢
    rcases Nat.lt_or_ge (m % n + 1) n with hless | hge
    · exact Nat.mod_eq_of_lt hless
    · have hall : m % n + 1 = n := by omega
      rw [hall, Nat.mod_self] at h
      exact absurd rfl h

/-- The counter goes up by one until it starts over, which sets off a sweep. -/
theorem counter_succ {made interval : Nat} (h : counter (made + 1) % interval ≠ 0) :
    counter (made + 1) % interval = counter made % interval + 1 := by
  have hcounter : counter (made + 1) = counter made + 1 :=
    succ_mod fun hzero => h (by rw [counter, hzero, Nat.zero_mod])
  rw [hcounter] at h ⊢
  exact succ_mod h

theorem counter_of_lt {made : Nat} (h : made < Config.bound) : counter made = made :=
  Nat.mod_eq_of_lt h

theorem toNat_succ {fresh : UInt64} {made : Nat} (h : fresh.toNat = counter made) :
    (fresh + 1).toNat = counter (made + 1) := by
  rw [UInt64.toNat_add, h, counter, counter]
  exact Nat.mod_add_mod ..

/-- Right after a sweep a registry stores its living instances alone. -/
theorem countAll_of_swept {w : World} {declared : List (RegistryId × Tag)}
    (hw : (w.sweep r).Canonical declared) {reg : Registry}
    (hreg : (w.sweep r).registries[r]? = some reg) :
    reg.canonical.root.countAll = living declared r (w.sweep r) := by
  have hsound : Client.Sound ⟨w.sweep r, [], declared⟩ := ⟨hw, by simp⟩
  have hcount := hsound.encard_living hreg
  have hliving : living declared r (w.sweep r) = reg.canonical.root.countLive w.heap.alive := by
    rw [living, Set.ncard, hcount]
    rfl
  rw [hliving]
  rw [World.sweep, World.registries_updateRegistry, if_pos rfl] at hreg
  obtain ⟨reg', -, rfl⟩ := Option.map_eq_some_iff.mp hreg
  change (reg'.canonical.root.purged w.heap.alive).countAll =
    (reg'.canonical.root.purged w.heap.alive).countLive w.heap.alive
  rw [Level.countAll_eq, Level.countLive_eq, Level.entries_purged, List.filter_filter]
  simp

/-- Counting and sweeping is noted right. -/
theorem Kept.make (hk : l.Kept r) {reg : Registry} (hreg : l.world.registries[r]? = some reg)
    {tag : Tag} {fields : List Value} (ht : (r, tag) ∈ l.declared)
    (hin : ∀ v ∈ fields, l.world.heap.Proper v) (hnew : l.world.found? r tag fields = .none) :
    Kept r (l.make r reg.config.purgeInterval (l.world.canonicalize r tag fields).2) := by
  have hcanonical := (hk.world.canonicalize ht hin).canonical
  have hknows := (hk.world.registries r reg hreg).1
  have hlearned := World.registries_withInstance_self hreg tag fields
  rw [World.canonicalize_new hreg hknows.retention hnew] at hcanonical ⊢
  rcases Nat.eq_zero_or_pos reg.config.purgeInterval with hzero | hinterval
  · -- Nothing is counted where there are no sweeps.
    have hsame : (l.world.withInstance r tag fields).countFresh r =
        l.world.withInstance r tag fields := by
      simp [World.countFresh, hlearned, World.Registry.learn, hzero]
    obtain ⟨hworld, hdeclared⟩ := l.world_make r reg.config.purgeInterval
      (l.world.withInstance r tag fields)
    simp only [hsame] at hcanonical ⊢
    refine ⟨?_, fun hnone => ?_, fun reg' hreg' hinterval => ?_⟩
    · rw [hworld, hdeclared]
      exact hcanonical
    · rw [hworld, hlearned] at hnone
      cases hnone
    · rw [hworld, hlearned] at hreg'
      cases hreg'
      exact absurd hzero (Nat.ne_of_gt hinterval)
  · obtain ⟨hmade, hsince, hle⟩ := hk.registry reg hreg hinterval
    have hcounted := World.registries_counted hlearned
    rw [World.countFresh_withInstance hreg hinterval, toNat_succ hmade] at hcanonical ⊢
    by_cases hturn : counter (l.made + 1) % reg.config.purgeInterval = 0
    · simp only [Ledger.make, hturn, if_true] at hcanonical ⊢
      have hswept := World.registries_sweep hcounted
      refine ⟨hcanonical, fun hnone => ?_, fun reg' hreg' _ => ?_⟩
      · rw [hswept] at hnone
        cases hnone
      · have hstored := countAll_of_swept hcanonical hreg'
        rw [hswept] at hreg'
        cases hreg'
        exact ⟨toNat_succ hmade, hturn.symm, Nat.le_of_eq hstored⟩
    · simp only [Ledger.make, hturn, if_false] at hcanonical ⊢
      refine ⟨hcanonical, fun hnone => ?_, fun reg' hreg' _ => ?_⟩
      · rw [hcounted] at hnone
        cases hnone
      · rw [hcounted] at hreg'
        cases hreg'
        have hpath : World.canonicalPath tag fields ≠ [] := by simp [World.canonicalPath]
        have hone :=
          Level.countAll_insert_le hknows.distinct (.weak (.inst l.world.nextObject)) hpath
        refine ⟨toNat_succ hmade, ?_, Nat.le_trans hone (Nat.add_le_add_right hle 1)⟩
        rw [hsince]
        exact (counter_succ hturn).symm

theorem Kept.step (hk : l.Kept r) (h : Step r l l') : l'.Kept r := by
  cases h with
  | registry config =>
    exact hk.calm (hk.world.addRegistry config) (World.calm_addRegistry _ r config)
  | object o hplain hin =>
    exact hk.calm (hk.world.push o hin hplain) (World.calm_of_registry rfl)
  | data i =>
    exact hk.calm (hk.world.swept (World.withData_swept _ i)) (World.calm_withData _ r i)
  | tag i reg tag hreg hserial hid =>
    exact hk.calm (hk.world.withTag hreg hserial hid) (World.calm_withTag _ r i)
  | reuse i tag fields ht hin hold =>
    exact hk.calm (hk.world.canonicalize ht hin).canonical (hk.world.calm_canonicalize ht hold)
  | make reg tag fields hreg ht hin hnew => exact hk.make hreg ht hin hnew
  | purge i => exact hk.calm (hk.world.swept (World.sweep_swept _ i)) (World.calm_sweep _ r i)
  | release heap kept hr => exact hk.calm (hk.world.release hr) (World.calm_of_registry rfl)
  | other w hheap hregistries hserials =>
    refine hk.calm (hk.world.congr hheap hregistries hserials) (World.calm_of_registry ?_)
    rw [hregistries]

theorem Kept.steps (hk : l.Kept r) (h : Steps r l l') : l'.Kept r := by
  induction h with
  | refl => exact hk
  | tail _ hstep ih => exact ih.step hstep

theorem Reachable.kept (hl : l.Reachable r) : l.Kept r := by
  have hstart : Kept r {} := ⟨Client.sound_start.world, fun _ => ⟨rfl, rfl, rfl⟩, by simp⟩
  exact hstart.steps hl

/-! ### Programs -/

/-- The ledger at a moment of a program. -/
def At (l : Ledger) (k : Holder) : Prop := l.world = k.world ∧ l.declared = k.client.declared

/-- A construction is noted. -/
theorem Kept.canonicalize (hk : l.Kept r) {i : RegistryId} {tag : Tag} {fields : List Value}
    (ht : (i, tag) ∈ l.declared) (hin : ∀ v ∈ fields, l.world.heap.Proper v) :
    ∃ l', Step r l l' ∧ l'.world = (l.world.canonicalize i tag fields).2 ∧
      l'.declared = l.declared := by
  by_cases hold : r ≠ i ∨ (l.world.found? i tag fields).isSome
  · exact ⟨_, .reuse i tag fields ht hin hold, rfl, rfl⟩
  · obtain ⟨hr, hnew⟩ := not_or.mp hold
    cases not_ne_iff.mp hr
    obtain ⟨reg, hreg⟩ : ∃ reg, l.world.registries[r]? = some reg :=
      ⟨_, Array.getElem?_eq_getElem (hk.world.tags _ ht).1⟩
    exact ⟨_, .make reg tag fields hreg ht hin (by simpa using hnew), l.world_make ..⟩

theorem Kept.form (hk : l.Kept r) {v : Variant} (hv : (v.registry, v.tag) ∈ l.declared)
    {form : Form} {x : Value} {w : World} (hin : ∀ a ∈ form.values, l.world.heap.Proper a)
    (hrun : form.run v l.world = (.ok x, w)) :
    ∃ l', Steps r l l' ∧ l'.world = w ∧ l'.declared = l.declared := by
  rcases Form.run_ok hrun with ⟨values, hf, -, hcon⟩ | ⟨-, rfl, -⟩
  · obtain ⟨l', hstep, hworld, hdeclared⟩ :=
      hk.canonicalize (r := r) hv (fields_proper hk.world.heap hin hf)
    rw [hcon] at hworld
    exact ⟨l', .single hstep, hworld, hdeclared⟩
  · exact ⟨l, .refl, rfl, rfl⟩

theorem Kept.variant (hk : l.Kept r) {i : RegistryId} (hi : i < l.world.registries.size)
    (owner : UInt32) (spec : VariantSpec) :
    ∃ l', Steps r l l' ∧ l'.world = (l.world.addVariant i owner spec).2 ∧
      l'.declared = l.declared ++ [(i, (l.world.addVariant i owner spec).1.tag)] := by
  obtain ⟨reg, hreg⟩ : ∃ reg, l.world.registries[i]? = some reg :=
    ⟨_, Array.getElem?_eq_getElem hi⟩
  obtain ⟨tag, hserial, hid, -, heq⟩ := World.addVariant_eq hreg owner spec
  have htag : Step r l _ := .tag i reg tag hreg hserial hid
  rw [heq]
  split
  · have hknown : (i, tag) ∈ l.declared ++ [(i, tag)] := by simp
    have hnone : ∀ v ∈ ([] : List Value), (l.world.withTag i).heap.Proper v := by simp
    obtain ⟨l', hstep, hworld, hdeclared⟩ := (hk.step htag).canonicalize hknown hnone
    exact ⟨l', .tail (.single htag) hstep, hworld, hdeclared⟩
  · exact ⟨_, .single htag, rfl, rfl⟩

theorem Kept.variants (hk : l.Kept r) {i : RegistryId} (hi : i < l.world.registries.size)
    (owner : UInt32) (specs : List VariantSpec) :
    ∃ l', Steps r l l' ∧ l'.world = (l.world.addVariants i owner specs).2 ∧
      l'.declared =
        l.declared ++ (l.world.addVariants i owner specs).1.map fun v => (i, v.tag) := by
  induction specs generalizing l with
  | nil => exact ⟨l, .refl, rfl, by simp [World.addVariants]⟩
  | cons spec rest ih =>
    obtain ⟨l₁, hsteps, hworld, hdeclared⟩ := hk.variant hi owner spec
    have hsize : l₁.world.registries.size = l.world.registries.size := by
      rw [hworld]
      exact (hk.world.addVariant hi owner spec).1.size
    obtain ⟨l₂, hsteps', hworld', hdeclared'⟩ := ih (hk.steps hsteps) (hsize ▸ hi)
    refine ⟨l₂, hsteps.trans hsteps', ?_, ?_⟩
    · rw [hworld', hworld]
      rfl
    · rw [hdeclared', hdeclared, hworld]
      simp [World.addVariants]

theorem Kept.declare (hk : l.Kept r) {i : RegistryId} (hi : i < l.world.registries.size)
    {name : String} {base? : Option Data} {specs : List VariantSpec} {d : Data} {w : World}
    (hrun : OpenVariants.declare i name base? specs l.world = (.ok d, w)) :
    ∃ l', Steps r l l' ∧ l'.world = w ∧
      l'.declared = l.declared ++ (d.own base?).map fun v => (i, v.tag) := by
  obtain ⟨-, owner, hown, -, rfl⟩ := World.declare_ok hrun
  have hdata : Step r l _ := .data i
  have hsize := (World.withData_swept l.world i).size
  obtain ⟨l', hsteps, hworld, hdeclared⟩ := (hk.step hdata).variants (hsize ▸ hi) owner specs
  rw [hown]
  exact ⟨l', .head hdata hsteps, hworld, hdeclared⟩

/-- Every step of a program is a number of steps of the ledger. -/
theorem Kept.program (hk : l.Kept r) {k k' : Holder} (hs : k.Sound) (hl : l.At k)
    (h : Holder.Step k k') : ∃ l', Steps r l l' ∧ l'.At k' := by
  obtain ⟨world, declared, made, kept, since⟩ := l
  obtain ⟨rfl, rfl⟩ : world = k.world ∧ declared = k.client.declared := hl
  cases h with
  | client c h hheld =>
    cases h with
    | registry config => exact ⟨_, .single (.registry config), rfl, rfl⟩
    | content content hplain hin =>
      refine ⟨_, .single (.object (.content content) (fun tag values h => ?_) hin), rfl, rfl⟩
      exact hplain tag values (Object.content.inj h)
    | function label body =>
      refine ⟨_, .single (.object (.function label body) ?_ ?_), rfl, rfl⟩ <;>
        simp [Object.children]
    | lazy body =>
      refine ⟨_, .single (.object (.lazy body) ?_ ?_), rfl, rfl⟩ <;> simp [Object.children]
    | declare i name base? specs d w hi hb hrun => exact hk.declare hi hrun
    | construct d v form x w hd hv hin hrun =>
      exact hk.form (hs.has (.inr ⟨d, hd, hv⟩)).known hin hrun
    | release heap data hd hr => exact ⟨_, .single (.release heap _ hr), rfl, rfl⟩
    | purge i => exact ⟨_, .single (.purge i), rfl, rfl⟩
    | other w hheap hregistries hserials =>
      exact ⟨_, .single (.other w hheap hregistries hserials), rfl, rfl⟩
  | clone | letGo => exact ⟨_, .refl, rfl, rfl⟩
  | construct v form x w hv hin hrun => exact hk.form (hs.has (.inl hv)).known hin hrun

theorem Reachable.programs {k : Holder} (hk : k.Reachable) :
    ∃ l : Ledger, l.Reachable r ∧ l.At k := by
  induction hk with
  | refl => exact ⟨{}, .refl, rfl, rfl⟩
  | tail hsteps hstep ih =>
    obtain ⟨l, hl, hat⟩ := ih
    obtain ⟨l', hsteps', hat'⟩ := hl.kept.program (Holder.Reachable.sound hsteps) hat hstep
    exact ⟨l', Relation.ReflTransGen.trans hl hsteps', hat'⟩

/-- **Garbage is bounded.** Whatever a program does is noted, step by step, in the ledger
of a registry. At every moment of it, in the middle of declarations too, a registry that
sweeps has counted the instances it made; it gives again what is there, and of those it
makes every `purgeInterval`-th by its count sets off a sweep, and no other. That is every
`purgeInterval`-th of all as long as the counter has not started over. What the registry
stores, dead or alive, is at most what was alive at the last of these sweeps and what was
made since, which is less than `purgeInterval`, however long the program runs. -/
theorem garbage_bounded (r : RegistryId) :
    (∀ k l, Holder.Reachable k → l.Reachable r → l.At k →
      ∀ k', Holder.Step k k' → ∃ l', Steps r l l' ∧ l'.At k') ∧
    ∀ l : Ledger, l.Reachable r → ∀ reg, l.world.registries[r]? = some reg →
      0 < reg.config.purgeInterval →
      (reg.canonical.root.countAll ≤ l.kept + l.since ∧ l.since < reg.config.purgeInterval ∧
        l.since = counter l.made % reg.config.purgeInterval ∧
        reg.fresh.toNat = counter l.made) ∧
      (∀ tag fields,
        (∀ x, l.world.found? r tag fields = some x →
          l.world.canonicalize r tag fields = (x, l.world)) ∧
        (l.world.found? r tag fields = none →
          l.world.canonicalize r tag fields = (.inst l.world.nextObject,
            if counter (l.made + 1) % reg.config.purgeInterval = 0 then
              ((l.world.withInstance r tag fields).counted r).sweep r
            else (l.world.withInstance r tag fields).counted r))) ∧
      (l.made + 1 < Config.bound → counter l.made = l.made ∧ counter (l.made + 1) = l.made + 1) := by
  refine ⟨fun k l hk hl hat k' hstep => hl.kept.program hk.sound hat hstep, ?_⟩
  intro l hl reg hreg hinterval
  have hkept := hl.kept
  obtain ⟨hmade, hsince, hle⟩ := hkept.registry reg hreg hinterval
  have hweak := (hkept.world.registries r reg hreg).1.retention
  refine ⟨⟨hle, hsince ▸ Nat.mod_lt _ hinterval, hsince, hmade⟩, fun tag fields => ⟨?_, ?_⟩, ?_⟩
  · intro x hfound
    exact World.canonicalize_found hreg hweak hfound
  · intro hnew
    rw [World.canonicalize_new hreg hweak hnew, World.countFresh_withInstance hreg hinterval,
      toNat_succ hmade]
  · intro hmany
    exact ⟨counter_of_lt (Nat.lt_of_succ_lt hmany), counter_of_lt hmany⟩

/-! ### Numbers that are swept -/

/-- A program with a registry that sweeps after every second instance. -/
def halving : Holder := ⟨{world := (World.addRegistry {purgeInterval := 2} {}).2}, []⟩

/-- The program after it declared numbers. -/
def halvingZero : Holder :=
  halving.withData 0 none Client.number
    (World.addData 0 "Number" none [⟨"Zero", []⟩, ⟨"Next", ["of"]⟩] halving.world).2

/-- The program after it constructed the number after zero, which set off a sweep. -/
def halvingOne : Holder :=
  halvingZero.withWorld ((Form.positional [.inst 0]).run Client.next halvingZero.world).2

/-- The program after it constructed the number after that one, which set off none. -/
def halvingTwo : Holder :=
  halvingOne.withWorld ((Form.positional [.inst 1]).run Client.next halvingOne.world).2

/-- The program after it let go of all numbers but zero. -/
def halved : Holder := halvingTwo.keeping [Client.number]

theorem halved_reachable : halved.Reachable := by
  have hstart : halving.Reachable := .single (.client _ (.registry {} {purgeInterval := 2}) (by simp))
  have hdeclare : OpenVariants.declare 0 "Number" none [⟨"Zero", []⟩, ⟨"Next", ["of"]⟩] halving.world =
      (.ok Client.number, halvingZero.world) := rfl
  have hzero : halvingZero.Reachable :=
    hstart.tail (hstart.sound.declare (by decide) (by simp) hdeclare)
  have hnext : halvingZero.Has Client.next :=
    .inr ⟨Client.number, List.mem_cons_self, .tail _ List.mem_cons_self⟩
  have hzeroLives :
      halvingZero.world.heap.object? 0 = some (.content (.fields Client.zero.tag [])) := rfl
  have hfirst : ∀ a ∈ (Form.positional [.inst 0]).values, halvingZero.world.heap.Proper a :=
    Heap.proper_inst_alone hzeroLives
  have hone : halvingOne.Reachable := hzero.tail (hzero.sound.construct hnext hfirst rfl)
  have honeLives :
      halvingOne.world.heap.object? 1 = some (.content (.fields Client.next.tag [.inst 0])) := rfl
  have hsecond : ∀ a ∈ (Form.positional [.inst 1]).values, halvingOne.world.heap.Proper a :=
    Heap.proper_inst_alone honeLives
  have htwo : halvingTwo.Reachable := hone.tail (hone.sound.construct hnext hsecond rfl)
  exact htwo.tail (htwo.sound.keeping (List.Subset.refl _))

/-- Three numbers were counted, and two of them let go of after the sweep: all three are stored,
which are the two that were alive at the sweep and the one that was made since. -/
theorem halved_bounded : ∃ l : Ledger, l.Reachable 0 ∧ l.At halved ∧
    counter l.made = 3 ∧ l.since = 1 ∧ ∃ reg, l.world.registries[0]? = some reg ∧
      reg.canonical.root.countAll = 3 ∧ 2 ≤ l.kept := by
  obtain ⟨l, hl, hat⟩ : ∃ l : Ledger, l.Reachable 0 ∧ l.At halved := Reachable.programs halved_reachable
  obtain ⟨reg, hreg, hfresh, hinterval, hcount⟩ : ∃ reg, l.world.registries[0]? = some reg ∧
      reg.fresh = 3 ∧ reg.config.purgeInterval = 2 ∧ reg.canonical.root.countAll = 3 := by
    rw [hat.1]
    exact ⟨_, rfl, rfl, rfl, rfl⟩
  obtain ⟨⟨hle, -, hsince, hmade⟩, -⟩ :=
    (garbage_bounded 0).2 l hl reg hreg (hinterval ▸ Nat.succ_pos 1)
  rw [hfresh] at hmade
  rw [hinterval, ← hmade] at hsince
  rw [hcount, hsince] at hle
  exact ⟨l, hl, hat, hmade.symm, hsince, reg, hreg, hcount, Nat.le_of_succ_le_succ hle⟩

end Ledger

end OpenVariants

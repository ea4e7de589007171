import OpenVariants.Proofs.Construction
import OpenVariants.Proofs.Entries
import OpenVariants.Session

/-! Living instances are counted exactly.

A registry counts the living entries of its canonical store. Those are as many as
its living instances, since both are the same pairs of a path and an instance
(`Canonical.living_entry_iff`): a living instance is stored under its own path, which
lives as long as it does, and a living entry is that of a living instance. What else
is stored, under dead keys or for dead instances, is not counted, whether or not a
sweep was there yet. -/
namespace OpenVariants

open Store (Level)

/-- Only an instance is named as one. -/
theorem Object.eq_fields_of_reference {o : Object} {id : ObjectId} (h : o.reference id = .inst id) :
    ∃ tag values, o = .content (.fields tag values) := by
  unfold reference at h
  split at h
  case h_3 tag values => exact ⟨tag, values, rfl⟩
  all_goals cases h

namespace World

variable {declared : List (RegistryId × Tag)} {w : World} {r : RegistryId} {reg : Registry}

/-- The living entries of a canonical store are the living instances of its registry,
each under its path. -/
theorem Canonical.living_entry_iff (hc : w.Canonical declared)
    (hreg : w.registries[r]? = some reg) (e : List Key × Store.Stored) :
    e ∈ reg.canonical.root.entries.filter (Level.living w.heap.alive) ↔
      ∃ id tag values, w.heap.instance? (.inst id) = some (tag, values) ∧ (r, tag) ∈ declared ∧
        e = (canonicalPath tag values, .weak (.inst id)) := by
  obtain ⟨path, s⟩ := e
  have hk := (hc.registries r reg hreg).1
  rw [List.mem_filter, Level.mem_entries hk.distinct]
  constructor
  · rintro ⟨hstored, hliving⟩
    obtain ⟨id, rfl, _, hknown⟩ := hk.stored path s hstored
    have halive := (Bool.and_eq_true_iff.mp hliving).2
    obtain ⟨o, ho⟩ := Heap.alive_iff.mp (Heap.holds_iff.mp halive id rfl)
    obtain ⟨tag, values, rfl, ht, rfl⟩ := hknown o ho
    exact ⟨id, tag, values, Heap.instance?_inst.mpr ho, ht, rfl⟩
  · rintro ⟨id, tag, values, hinst, ht, he⟩
    cases he
    have ho := Heap.instance?_inst.mp hinst
    obtain ⟨r', reg', ht', hreg', hstored⟩ := hc.instances id tag values ho
    -- The tag is of one registry only.
    cases hc.serials _ ht _ ht' rfl
    rw [hreg] at hreg'
    cases hreg'
    refine ⟨hstored, Bool.and_eq_true_iff.mpr ⟨?_, (Heap.proper_inst ho).holds⟩⟩
    exact canonicalPath_alive tag fun v hv => (hc.heap id _ ho v hv).1

/-- A living instance has one entry. -/
theorem Canonical.living_entries_injOn (hc : w.Canonical declared)
    (hreg : w.registries[r]? = some reg) :
    Set.InjOn (fun e => e.2.value.object?)
      {e | e ∈ reg.canonical.root.entries.filter (Level.living w.heap.alive)} := by
  intro e he e' he' heq
  obtain ⟨id, tag, values, hinst, _, rfl⟩ := (hc.living_entry_iff hreg e).mp he
  obtain ⟨id', tag', values', hinst', _, rfl⟩ := (hc.living_entry_iff hreg e').mp he'
  cases heq
  rw [hinst] at hinst'
  cases hinst'
  rfl

end World

namespace Client

/-- The living instances that a registry created. -/
def living (c : Client) (r : RegistryId) : Set ObjectId :=
  {id | ∃ tag values, c.world.heap.instance? (.inst id) = some (tag, values) ∧
    (r, tag) ∈ c.declared}

theorem Sound.encard_living {c : Client} (hs : c.Sound) {r : RegistryId} {reg : Registry}
    (hreg : c.world.registries[r]? = some reg) :
    (c.living r).encard = Session.liveInstances c.world reg := by
  let entries := reg.canonical.root.entries.filter (Level.living c.world.heap.alive)
  have hnodup : entries.Nodup :=
    ((Level.nodup_paths (hs.world.registries r reg hreg).1.distinct).of_map _).filter _
  have himage : some '' c.living r = (fun e => e.2.value.object?) '' {e | e ∈ entries} := by
    ext x
    constructor
    · rintro ⟨id, ⟨tag, values, hinst, ht⟩, rfl⟩
      exact ⟨_, (hs.world.living_entry_iff hreg _).mpr ⟨id, tag, values, hinst, ht, rfl⟩, rfl⟩
    · rintro ⟨e, he, rfl⟩
      obtain ⟨id, tag, values, hinst, ht, rfl⟩ := (hs.world.living_entry_iff hreg e).mp he
      exact ⟨id, ⟨tag, values, hinst, ht⟩, rfl⟩
  calc (c.living r).encard
      = (some '' c.living r).encard := ((Option.some_injective _).encard_image _).symm
    _ = {e | e ∈ entries}.encard := by
      rw [himage, (hs.world.living_entries_injOn hreg).encard_image]
    _ = entries.length := encard_of_nodup hnodup
    _ = Session.liveInstances c.world reg := by
      rw [Session.liveInstances, Store.count, Level.countLive_eq]

end Client

namespace Holder

/-- **Living instances are counted exactly.** Whatever a program has declared,
constructed, let go of and swept, each registry counts as living just the living
instances that it created, each once. Every living instance is that of one registry,
and the instance of a variant without fields lives as long as its data or a clone of it
is held. -/
theorem Reachable.live_instances {k : Holder} (hk : k.Reachable) :
    (∀ r reg, k.world.registries[r]? = some reg →
      (k.client.living r).encard = Session.liveInstances k.world reg) ∧
    (∀ id tag values, k.world.heap.instance? (.inst id) = some (tag, values) →
      ∃! r, r < k.world.registries.size ∧ id ∈ k.client.living r) ∧
    ∀ v, k.Has v → ∀ id, v.singleton? = some id →
      ∃ tag values, k.world.heap.instance? (.inst id) = some (tag, values) := by
  have hs := hk.sound
  refine ⟨fun r reg hreg => hs.client.encard_living hreg, fun id tag values hinst => ?_,
    fun v hv id hid => ?_⟩
  · obtain ⟨r, reg, hr, hreg, _⟩ :=
      hs.client.world.instances id tag values (Heap.instance?_inst.mp hinst)
    refine ⟨r, ⟨(Array.getElem?_eq_some_iff.mp hreg).1, tag, values, hinst, hr⟩, ?_⟩
    rintro r' ⟨_, tag', values', hinst', hr'⟩
    rw [hinst] at hinst'
    cases hinst'
    exact congrArg Prod.fst (hs.client.world.serials _ hr' _ hr rfl)
  · obtain ⟨o, ho, href⟩ := ((hs.has hv).inst id hid).1 id rfl
    obtain ⟨tag, values, rfl⟩ := Object.eq_fields_of_reference href
    exact ⟨tag, values, Heap.instance?_inst.mpr ho⟩

/-! ### Numbers let go of -/

/-- The program with one number after zero, after it constructed the second one as well. -/
def twoHeld : Holder :=
  nextHeld.withWorld ((Form.positional [.inst 1]).run Client.next nextHeld.world).2

theorem nextHeld_twoHeld : Step nextHeld twoHeld := by
  have hone : nextHeld.world.heap.object? 1 =
      some (.content (.fields Client.next.tag [.inst 0])) := rfl
  exact .construct Client.next (.positional [.inst 1]) (.inst 2) _ List.mem_cons_self
    (Heap.proper_inst_alone hone) rfl

/-- The program after it took a clone of zero and let go of all else: the first number is
dead in the store, and the second is dead under the first, which is a dead key. -/
def zeroLeft : Holder := Holder.keeping {twoHeld with variants := [Client.zero]} []

theorem zeroLeft_reachable : zeroLeft.Reachable := by
  have htwo : twoHeld.Reachable := nextHeld_reachable.tail nextHeld_twoHeld
  have hclone : Step twoHeld {twoHeld with variants := [Client.zero, Client.next]} :=
    .clone Client.number Client.zero List.mem_cons_self List.mem_cons_self
  have hzero : Step {twoHeld with variants := [Client.zero, Client.next]}
      {twoHeld with variants := [Client.zero]} := .letGo [Client.zero] (by simp)
  have hleft : Reachable {twoHeld with variants := [Client.zero]} := (htwo.tail hclone).tail hzero
  exact hleft.tail (hleft.sound.keeping (List.nil_subset _))

/-- Of three stored instances one is living, and one is counted. -/
theorem zeroLeft_counted :
    (zeroLeft.world.registries[0]?.map (·.canonical.root.countAll)) = some 3 ∧
      (zeroLeft.client.living 0).encard = 1 ∧ ∃! r, r < 1 ∧ 0 ∈ zeroLeft.client.living r := by
  obtain ⟨hcount, honce, -⟩ := zeroLeft_reachable.live_instances
  exact ⟨rfl, hcount 0 _ rfl, honce 0 Client.zero.tag [] rfl⟩

end Holder

end OpenVariants

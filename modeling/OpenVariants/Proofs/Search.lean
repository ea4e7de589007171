import Mathlib.Data.List.Nodup
import Mathlib.Logic.Relation
import OpenVariants.Heap.Search
import OpenVariants.Proofs.Key
import OpenVariants.Proofs.Reach

/-! What a search finds.

A value leads to what is inside it, and on from there (`Leads`). A search that starts with
a value finds a target exactly when the value leads to one, whatever the shape of the heap:
what it has passed by is no target, and what is inside that is passed by or pending
(`Covers`), so that nothing is left out when nothing is pending any more. An object is
marked as soon as what is inside it becomes pending, so that this happens once. For keys
of values in hand it is the reachability of objects that is decided (`reachesAny_iff`). -/
namespace OpenVariants

namespace Heap

/-- What is inside a value: the fields, items or entries as they are stored. What is not
compared by identity has nothing inside, nor have functions and lazies. -/
def inside (h : Heap) (v : Value) : List Value :=
  match (Key.ofValue v).object? with
  | some id => h.children id
  | none => []

/-- A value leads to itself, and to what is inside a value that it leads to. -/
abbrev Leads (h : Heap) : Value → Value → Prop := Relation.ReflTransGen fun v u => u ∈ h.inside v

theorem inside_of_object {h : Heap} {v : Value} {id : ObjectId}
    (hv : (Key.ofValue v).object? = some id) : h.inside v = h.children id := by
  rw [inside, hv]

theorem exists_object_of_inside {h : Heap} {v u : Value} (hu : u ∈ h.inside v) :
    ∃ id, (Key.ofValue v).object? = some id ∧ u ∈ h.children id := by
  unfold inside at hu
  split at hu
  · next id hv => exact ⟨id, hv, hu⟩
  · cases hu

end Heap

namespace Search
variable {h : Heap} {targets : List ObjectId} {v u : Value} {notes : List ObjectId}
  {s s' : Search} {note : Option ObjectId} {result : Bool} {seen : Heap.Marks}
  {rest : List Value} {id : ObjectId}

/-! ### What a search has passed by -/

/-- A value is passed by: it is no target, and its object was seen. -/
def Passed (targets : List ObjectId) (seen : Heap.Marks) (u : Value) : Prop :=
  ∀ id, (Key.ofValue u).object? = some id → id ∉ targets ∧ seen[id]? ≠ some false

theorem getElem?_see (hseen : seen[id]? = some false) (i : ObjectId) :
    (seen.setIfInBounds id true)[i]? = if i = id then some true else seen[i]? := by
  have hlt := (Array.getElem?_eq_some_iff.mp hseen).1
  rw [Array.getElem?_setIfInBounds]
  by_cases hi : i = id
  · subst hi
    simp [hlt]
  · simp [hi, Ne.symm hi]

theorem passed_see (hid : (Key.ofValue u).object? = some id) (htarget : id ∉ targets)
    (hseen : seen[id]? = some false) : Passed targets (seen.setIfInBounds id true) u := by
  intro i hi
  cases hid.symm.trans hi
  refine ⟨htarget, ?_⟩
  rw [getElem?_see hseen, if_pos rfl]
  simp

theorem Passed.see (hu : Passed targets seen u) (hseen : seen[id]? = some false) :
    Passed targets (seen.setIfInBounds id true) u := by
  intro i hi
  refine ⟨(hu i hi).1, ?_⟩
  rw [getElem?_see hseen]
  split
  · simp
  · exact (hu i hi).2

/-- What is passed by once an object is seen was so before, or is known by the object. -/
theorem Passed.of_see (hu : Passed targets (seen.setIfInBounds id true) u)
    (hseen : seen[id]? = some false) :
    Passed targets seen u ∨ (Key.ofValue u).object? = some id := by
  by_cases hid : (Key.ofValue u).object? = some id
  · exact .inr hid
  · refine .inl fun i hi => ⟨(hu i hi).1, ?_⟩
    have hne : i ≠ id := fun heq => hid (heq ▸ hi)
    have := (hu i hi).2
    rwa [getElem?_see hseen, if_neg hne] at this

/-! ### A search under way -/

/-- A search that started with a value and has expanded some objects so far. -/
structure Covers (h : Heap) (targets : List ObjectId) (v : Value) (notes : List ObjectId)
    (s : Search) : Prop where
  nodup : notes.Nodup
  marked : ∀ id ∈ notes, s.seen[id]? = some true
  led : ∀ u ∈ s.pending, h.Leads v u
  root : Passed targets s.seen v ∨ v ∈ s.pending
  closed : ∀ u, Passed targets s.seen u → ∀ w ∈ h.inside u,
    Passed targets s.seen w ∨ w ∈ s.pending

theorem covers_start (h : Heap) (targets : List ObjectId) (v : Value) :
    Covers h targets v [] (start h v) where
  nodup := List.nodup_nil
  marked _ hid := by cases hid
  led u hu := by
    cases List.mem_singleton.mp hu
    exact .refl
  root := .inr List.mem_cons_self
  closed u hu w hw := by
    -- Nothing is seen yet, so only what has nothing inside is passed by.
    obtain ⟨id, hid, hw⟩ := Heap.exists_object_of_inside hw
    have hlt : id < h.size := by
      refine Nat.lt_of_not_le fun hle => ?_
      rw [Heap.children_of_size_le hle] at hw
      cases hw
    refine absurd ?_ (hu id hid).2
    rw [start, Array.getElem?_replicate, if_pos hlt]

namespace Covers

/-- A value is passed by and nothing comes in. -/
theorem skip (hs : Covers h targets v notes ⟨seen, u :: rest⟩) (hu : Passed targets seen u) :
    Covers h targets v notes ⟨seen, rest⟩ := by
  have hstill : ∀ w, Passed targets seen w ∨ w ∈ u :: rest →
      Passed targets seen w ∨ w ∈ rest := by
    rintro w (hw | hw)
    · exact .inl hw
    · rcases List.mem_cons.mp hw with rfl | hw
      · exact .inl hu
      · exact .inr hw
  exact ⟨hs.nodup, hs.marked, fun w hw => hs.led w (List.mem_cons_of_mem u hw), hstill v hs.root,
    fun w hw x hx => hstill x (hs.closed w hw x hx)⟩

/-- A value is passed by for the first time, and what is inside comes in. -/
theorem expand (hs : Covers h targets v notes ⟨seen, u :: rest⟩)
    (hid : (Key.ofValue u).object? = some id) (htarget : id ∉ targets)
    (hseen : seen[id]? = some false) :
    Covers h targets v (notes ++ [id])
      ⟨seen.setIfInBounds id true, (h.children id).reverse ++ rest⟩ := by
  have hstill : ∀ w, Passed targets seen w ∨ w ∈ u :: rest →
      Passed targets (seen.setIfInBounds id true) w ∨ w ∈ (h.children id).reverse ++ rest := by
    rintro w (hw | hw)
    · exact .inl (hw.see hseen)
    · rcases List.mem_cons.mp hw with rfl | hw
      · exact .inl (passed_see hid htarget hseen)
      · exact .inr (List.mem_append_right _ hw)
  have hnew : id ∉ notes := by
    intro hmem
    have := hs.marked id hmem
    rw [hseen] at this
    cases this
  refine ⟨?_, fun i hi => ?_, fun w hw => ?_, hstill v hs.root, fun w hw x hx => ?_⟩
  · rw [← List.concat_eq_append]
    exact hs.nodup.concat hnew
  · rw [getElem?_see hseen]
    split
    · rfl
    · next hne =>
      exact hs.marked i ((List.mem_append.mp hi).resolve_right (by simpa using hne))
  · rcases List.mem_append.mp hw with hw | hw
    · refine (hs.led u List.mem_cons_self).tail ?_
      rw [Heap.inside_of_object hid]
      exact List.mem_reverse.mp hw
    · exact hs.led w (List.mem_cons_of_mem u hw)
  · rcases hw.of_see hseen with hw | hw
    · exact hstill x (hs.closed w hw x hx)
    · rw [Heap.inside_of_object hw] at hx
      exact .inr (List.mem_append_left _ (List.mem_reverse.mpr hx))

theorem round (hs : Covers h targets v notes s) (hround : s.round h targets = .again note s') :
    Covers h targets v (notes ++ note.toList) s' := by
  unfold Search.round at hround
  split at hround
  · cases hround
  · split at hround
    · next hplain =>
      cases hround
      rw [Option.toList_none, List.append_nil]
      exact hs.skip fun id hid => by cases hplain.symm.trans hid
    · next id hid =>
      split at hround
      · cases hround
      · next htarget =>
        have htarget : id ∉ targets := by simpa using htarget
        split at hround
        · next hseen =>
          cases hround
          exact hs.expand hid htarget hseen
        · next hseen =>
          cases hround
          rw [Option.toList_none, List.append_nil]
          refine hs.skip fun i hi => ?_
          cases hid.symm.trans hi
          exact ⟨htarget, hseen⟩

/-- When nothing is pending any more, all that the value leads to is passed by. -/
theorem passed (hs : Covers h targets v notes ⟨seen, []⟩) (hu : h.Leads v u) :
    Passed targets seen u := by
  induction hu with
  | refl => exact hs.root.resolve_right List.not_mem_nil
  | tail _ hw ih => exact (hs.closed _ ih _ hw).resolve_right List.not_mem_nil

theorem answer (hs : Covers h targets v notes s) (hround : s.round h targets = .done result) :
    result = true ↔ ∃ u id, h.Leads v u ∧ Key.ofValue u = .object id ∧ id ∈ targets := by
  unfold Search.round at hround
  split at hround
  · cases hround
    refine ⟨fun hfound => (by cases hfound), ?_⟩
    rintro ⟨u, id, hu, hid, hmem⟩
    exact absurd hmem (hs.passed hu id (Key.object?_eq_some.mpr hid)).1
  · next seen u rest =>
    split at hround
    · cases hround
    · next id hid =>
      split at hround
      · next htarget =>
        cases hround
        have hmem : id ∈ targets := by simpa using htarget
        have hled := hs.led u List.mem_cons_self
        exact ⟨fun _ => ⟨u, id, hled, Key.object?_eq_some.mp hid, hmem⟩, fun _ => rfl⟩
      · split at hround <;> cases hround

end Covers

/-- A search finds a target exactly when the value it starts with leads to one, and expands
no object twice. -/
theorem run_start (h : Heap) (targets : List ObjectId) (v : Value) :
    ((loop h targets).run (start h v) = true ↔
      ∃ u id, h.Leads v u ∧ Key.ofValue u = .object id ∧ id ∈ targets) ∧
    ((loop h targets).notes (start h v)).Nodup :=
  Loop.keeps (P := Covers h targets v)
    (Q := fun notes result => (result = true ↔
      ∃ u id, h.Leads v u ∧ Key.ofValue u = .object id ∧ id ∈ targets) ∧ notes.Nodup)
    (fun _ _ _ _ hs hround => hs.round hround)
    (fun _ _ _ hs hround => ⟨hs.answer hround, hs.nodup⟩) [] (start h v) (covers_start h targets v)

end Search

namespace Heap

/-! ### Keys that are found -/

theorem reachesAny_iff_leads (h : Heap) (v : Value) (path : List Key) :
    h.reachesAny v (path.filterMap Key.object?) = true ↔
      ∃ u id, h.Leads v u ∧ Key.ofValue u = .object id ∧ .object id ∈ path := by
  have hmem : ∀ id, id ∈ path.filterMap Key.object? ↔ .object id ∈ path := by
    intro id
    simp only [List.mem_filterMap, Key.object?_eq_some, exists_eq_right]
  unfold reachesAny
  split
  · next hempty =>
    have hnone : ∀ id, .object id ∉ path := by
      intro id hid
      have := (hmem id).mpr hid
      rw [List.isEmpty_iff.mp hempty] at this
      cases this
    refine ⟨fun hfound => (by cases hfound), ?_⟩
    rintro ⟨_, id, _, _, hid⟩
    exact absurd hid (hnone id)
  · simpa only [hmem] using (Search.run_start h (path.filterMap Key.object?) v).1

/-- **A search decides whether a value leads to a key.** It finds one exactly when a
reference key of the path is that of the value itself or of one that is reached from it
through fields, items and entries. It ends: it goes on at most once for the value that it
starts with and once for each reference in the heap. And no object is expanded twice,
however often it is found inside others. -/
theorem reachesAny_decides (h : Heap) (v : Value) (path : List Key) :
    let search := Search.loop h (path.filterMap Key.object?)
    (h.reachesAny v (path.filterMap Key.object?) = true ↔
      ∃ u id, h.Leads v u ∧ Key.ofValue u = .object id ∧ .object id ∈ path) ∧
    search.rounds (.start h v) ≤ h.references.length + 1 ∧
    (search.notes (.start h v)).Nodup := by
  intro search
  refine ⟨reachesAny_iff_leads h v path, ?_, (Search.run_start h _ v).2⟩
  have hle : search.rounds (.start h v) ≤
      [v].length + (h.unseen (Array.replicate h.size false)).length :=
    Loop.rounds_le_size (Search.start h v)
  rwa [unseen_replicate, List.length_singleton, Nat.add_comm] at hle

/-! ### Objects that are reached -/

/-- A value that names an object is known by it, unless it is a labelled function. -/
theorem key_of_object? {v : Value} {id : ObjectId} (hv : v.object? = some id) :
    Key.ofValue v = .object id ∨ ∃ label, v = .function id (some label) := by
  cases v with
  | function i label =>
    cases hv
    cases label with
    | none => exact .inl rfl
    | some label => exact .inr ⟨label, rfl⟩
  | list | record | lazy | inst =>
    cases hv
    exact .inl rfl
  | _ => cases hv

/-- A value in hand leads to what names the objects that it reaches. -/
theorem Reached.leads {h : Heap} (hs : h.Sound) {v : Value} (hv : h.Proper v) {id : ObjectId}
    (hr : h.Reached [v] id) : ∃ u, h.Leads v u ∧ h.Proper u ∧ u.object? = some id := by
  induction hr with
  | root u id hu hid =>
    cases List.mem_singleton.mp hu
    exact ⟨v, .refl, hv, hid⟩
  | step i o w id _ ho hw hid ih =>
    obtain ⟨u, hu, hproper, hobject⟩ := ih
    refine ⟨w, hu.tail ?_, (hs i o ho w hw).1, hid⟩
    have hkey : Key.ofValue u = .object i := by
      refine (key_of_object? hobject).resolve_right ?_
      rintro ⟨label, rfl⟩
      -- A function refers to nothing, so nothing is reached through it.
      obtain ⟨o', ho', hname⟩ := hproper i rfl
      cases ho.symm.trans ho'
      cases o with
      | content c => cases c <;> cases hname
      | function => cases hw
      | lazy => cases hw
    rw [inside_of_object (Key.object?_eq_some.mpr hkey), children, ho]
    exact hw

/-- What a value leads to names what the value reaches. -/
theorem Leads.reached {h : Heap} {v u : Value} (hu : h.Leads v u) {id : ObjectId}
    (hid : u.object? = some id) : h.Reached [v] id := by
  induction hu generalizing id with
  | refl => exact .root v id List.mem_cons_self hid
  | @tail b c _ hc ih =>
    obtain ⟨i, hi, hc⟩ := exists_object_of_inside hc
    cases ho : h.object? i with
    | none => simp [children, ho] at hc
    | some o =>
      refine .step i o c id (ih (ofValue_eq_object (Key.object?_eq_some.mp hi))) ho ?_ hid
      simpa [children, ho] using hc

/-- Of the keys of values in hand, a search finds those whose objects are reached. -/
theorem reachesAny_iff {h : Heap} (hs : h.Sound) {v : Value} (hv : h.Proper v) {path : List Key}
    (hpath : ∀ id, .object id ∈ path → ∃ k, h.Proper k ∧ Key.ofValue k = .object id) :
    h.reachesAny v (path.filterMap Key.object?) = true ↔
      ∃ id, .object id ∈ path ∧ h.Reached [v] id := by
  refine (reachesAny_iff_leads h v path).trans ⟨?_, ?_⟩
  · rintro ⟨u, id, hu, hkey, hid⟩
    exact ⟨id, hid, hu.reached (ofValue_eq_object hkey)⟩
  · rintro ⟨id, hid, hr⟩
    obtain ⟨u, hu, hproper, hobject⟩ := hr.leads hs hv
    obtain ⟨k, hk, hkey⟩ := hpath id hid
    cases hproper.eq_of_object? hk hobject (ofValue_eq_object hkey)
    exact ⟨u, id, hu, hkey, hid⟩

end Heap

end OpenVariants

import OpenVariants.Proofs.Heap

/-! Reachability.

What a list of values reaches is what they name and, step by step, what that refers to
(`Reached`). The one pass over the heap marks exactly that (`marked_iff`), so a
collection leaves exactly what the roots reach (`alive_collect`). The graph behind a
value in hand never changes: later objects are not reached from it, and what lets go of
others takes nothing from it. -/
namespace OpenVariants.Heap

inductive Reached (h : Heap) (roots : List Value) : ObjectId → Prop
  | root (v : Value) (id : ObjectId) (hv : v ∈ roots) (hid : v.object? = some id) :
    Reached h roots id
  | step (i : ObjectId) (o : Object) (v : Value) (id : ObjectId) (hi : Reached h roots i)
    (ho : h.object? i = some o) (hv : v ∈ o.children) (hid : v.object? = some id) :
    Reached h roots id

/-- From nothing nothing is reached. -/
theorem not_reached_nil {h : Heap} {id : ObjectId} : ¬ h.Reached [] id := by
  intro hr
  induction hr with
  | root _ _ hv _ => cases hv
  | step _ _ _ _ _ _ _ _ ih => exact ih

/-- What several values reach each is reached by one of them. -/
theorem reached_iff {h : Heap} {roots : List Value} {id : ObjectId} :
    h.Reached roots id ↔ ∃ v ∈ roots, h.Reached [v] id := by
  refine ⟨fun hr => ?_, ?_⟩
  · induction hr with
    | root v id hv hid => exact ⟨v, hv, .root v id List.mem_cons_self hid⟩
    | step i o v id _ ho hv hid ih =>
      obtain ⟨u, hu, hr⟩ := ih
      exact ⟨u, hu, .step i o v id hr ho hv hid⟩
  · rintro ⟨u, hu, hr⟩
    induction hr with
    | root v id hv hid => exact .root v id (List.mem_singleton.mp hv ▸ hu) hid
    | step i o v id _ ho hv hid ih => exact .step i o v id ih ho hv hid

/-- What values in hand reach is living. -/
theorem Reached.alive {h : Heap} (hs : h.Sound) {roots : List Value}
    (hroots : ∀ v ∈ roots, h.Proper v) {id : ObjectId} (hr : h.Reached roots id) :
    h.alive id = true := by
  cases hr with
  | root v id hv hid => exact holds_iff.mp (hroots v hv).holds id hid
  | step i o v id _ ho hv hid => exact holds_iff.mp (hs i o ho v hv).1.holds id hid

/-! ### The graph over time -/

/-- What is reached through fewer objects is reached. -/
theorem Reached.of_object {h h' : Heap} (hobject : ∀ i o, h'.object? i = some o → h.object? i = some o)
    {roots : List Value} {id : ObjectId} (hr : h'.Reached roots id) : h.Reached roots id := by
  induction hr with
  | root v id hv hid => exact .root v id hv hid
  | step i o v id _ ho hv hid ih => exact .step i o v id ih (hobject i o ho) hv hid

/-- A new object is not reached from what was there, nor anything through it. -/
theorem Reached.of_push {h : Heap} (hs : h.Sound) {o : Object} {roots : List Value}
    (hroots : ∀ v ∈ roots, h.Proper v) {id : ObjectId} (hr : (h.push o).Reached roots id) :
    h.Reached roots id := by
  induction hr with
  | root v id hv hid => exact .root v id hv hid
  | step i o' v id _ ho hv hid ih =>
    obtain ⟨o'', ho''⟩ := alive_iff.mp (ih.alive hs hroots)
    rw [object?_push, if_neg (Nat.ne_of_lt (lt_size ho''))] at ho
    exact .step i o' v id ih ho hv hid

/-! ### Marks -/

/-- Only what is reached is marked. -/
theorem reached_of_spread {h : Heap} {roots : List Value} (n : Nat) (marks : Marks)
    (hmarks : ∀ id, marks.getD id false = true → h.Reached roots id) (id : ObjectId)
    (hm : (h.spread n marks).getD id false = true) : h.Reached roots id := by
  induction n generalizing marks with
  | zero => exact hmarks id hm
  | succ n ih =>
    rw [spread] at hm
    refine ih _ (fun c hc => ?_) hm
    split at hc
    · next hn =>
      rcases (getD_mark marks _ c).mp hc with hc | ⟨_, v, hv, hid⟩
      · exact hmarks c hc
      · unfold children at hv
        cases ho : h.object? n with
        | none => simp [ho] at hv
        | some o => exact .step n o v c (hmarks n hn) ho (by simpa [ho] using hv) hid
    · exact hmarks c hc

/-- At first nothing is marked but what the roots name. -/
theorem named_of_mark {n : Nat} {roots : List Value} {id : ObjectId}
    (hm : (mark (Array.replicate n false) roots).getD id false = true) :
    id < n ∧ ∃ v ∈ roots, v.object? = some id := by
  rcases (getD_mark _ roots id).mp hm with hm | hm
  · rw [Array.getD_eq_getD_getElem?, Array.getElem?_replicate] at hm
    split at hm <;> cases hm
  · rwa [Array.size_replicate] at hm

/-- The marked objects are the reached ones. -/
theorem marked_iff {h : Heap} (hs : h.Sound) (roots : List Value) (id : ObjectId) :
    (h.marked roots).getD id false = true ↔ h.Reached roots id ∧ id < h.size := by
  refine ⟨fun hm => ⟨?_, ?_⟩, ?_⟩
  · refine reached_of_spread h.size _ (fun c hc => ?_) id hm
    obtain ⟨_, v, hv, hid⟩ := named_of_mark hc
    exact .root v c hv hid
  · refine Nat.lt_of_not_le fun hge => ?_
    rw [marked, spread_of_le hs _ _ id hge] at hm
    exact absurd (named_of_mark hm).1 (Nat.not_lt.mpr hge)
  · rintro ⟨hr, hlt⟩
    induction hr with
    | root v id hv hid => exact marked_root hv hid hlt
    | step i o v id _ ho hv hid ih =>
      exact marked_closed hs roots (ih (lt_size ho)) ho hv hid

/-! ### Collections -/

theorem object?_collect (h : Heap) (roots : List Value) (id : ObjectId) :
    (h.collect roots).object? id =
      if (h.marked roots).getD id false then h.object? id else none :=
  object?_filter h _ id

/-- A collection leaves what the roots reach. -/
theorem alive_collect {h : Heap} (hs : h.Sound) (roots : List Value) (id : ObjectId) :
    (h.collect roots).alive id = true ↔ h.alive id = true ∧ h.Reached roots id := by
  rw [alive_iff, object?_collect, alive_iff]
  split
  · next hm =>
    exact ⟨fun ho => ⟨ho, ((marked_iff hs roots id).mp hm).1⟩, And.left⟩
  · next hm =>
    constructor
    · rintro ⟨_, ho⟩
      cases ho
    · rintro ⟨⟨o, ho⟩, hr⟩
      exact absurd ((marked_iff hs roots id).mpr ⟨hr, lt_size ho⟩) hm

theorem Sound.collect {h : Heap} (hs : h.Sound) (roots : List Value) : (h.collect roots).Sound := by
  have hr : h.Retains (h.collect roots) [] := by
    refine retains_filter hs _ [] (fun id o v c hk ho hv hc => ?_) (by simp)
    exact marked_closed hs roots hk ho hv hc
  exact hs.retains hr

/-- What fewer roots reach, more of them reach. -/
theorem Reached.mono {h : Heap} {roots roots' : List Value} (hsub : ∀ v ∈ roots, v ∈ roots')
    {id : ObjectId} (hr : h.Reached roots id) : h.Reached roots' id := by
  obtain ⟨v, hv, hr⟩ := reached_iff.mp hr
  exact reached_iff.mpr ⟨v, hsub v hv, hr⟩

/-- A collection leaves the way to what some of the roots reach. -/
theorem Reached.collect {h : Heap} (hs : h.Sound) {roots kept : List Value}
    (hsub : ∀ v ∈ roots, v ∈ kept) {id : ObjectId} (hr : h.Reached roots id) :
    (h.collect kept).Reached roots id := by
  induction hr with
  | root v id hv hid => exact .root v id hv hid
  | step i o v id hi ho hv hid ih =>
    refine .step i o v id ih ?_ hv hid
    rw [object?_collect, if_pos ((marked_iff hs kept i).mpr ⟨hi.mono hsub, lt_size ho⟩)]
    exact ho

theorem size_collect (h : Heap) (roots : List Value) : (h.collect roots).size = h.size := by
  simp [Heap.collect, size]

/-- A heap is its size with its objects. -/
theorem ext_object {h h' : Heap} (hsize : h.size = h'.size)
    (hobject : ∀ id, h.object? id = h'.object? id) : h = h' := by
  obtain ⟨cells⟩ := h
  obtain ⟨cells'⟩ := h'
  have hcells : cells = cells' := by
    refine Array.ext hsize fun i hi hi' => ?_
    have := hobject i
    simpa [object?, Array.getElem?_eq_getElem hi, Array.getElem?_eq_getElem hi'] using this
  rw [hcells]

/-- What is collected for some of the roots may be collected for all of them first. -/
theorem collect_collect_of_subset {h : Heap} (hs : h.Sound) {roots kept : List Value}
    (hsub : ∀ v ∈ roots, v ∈ kept) : (h.collect kept).collect roots = h.collect roots := by
  refine ext_object (by simp only [size_collect]) fun id => ?_
  rw [object?_collect (h.collect kept), object?_collect h roots]
  by_cases hm : (h.marked roots).getD id false
  · obtain ⟨hr, hlt⟩ := (marked_iff hs roots id).mp hm
    have hm' := (marked_iff (hs.collect kept) roots id).mpr
      ⟨hr.collect hs hsub, (size_collect h kept).symm ▸ hlt⟩
    rw [if_pos hm, if_pos hm', object?_collect,
      if_pos ((marked_iff hs kept id).mpr ⟨hr.mono hsub, hlt⟩)]
  · rw [if_neg hm, if_neg fun hm' => hm ?_]
    obtain ⟨hr, hlt⟩ := (marked_iff (hs.collect kept) roots id).mp hm'
    refine (marked_iff hs roots id).mpr ⟨hr.of_object fun i o ho => ?_, size_collect h kept ▸ hlt⟩
    rw [object?_collect] at ho
    split at ho
    · exact ho
    · cases ho

/-- Collecting once more changes nothing. -/
theorem collect_collect {h : Heap} (hs : h.Sound) (roots : List Value) :
    (h.collect roots).collect roots = h.collect roots :=
  collect_collect_of_subset hs fun _ hv => hv

end OpenVariants.Heap

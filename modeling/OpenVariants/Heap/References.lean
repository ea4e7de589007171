import OpenVariants.Heap

/-! The references inside a heap.

What a heap holds beside an object, and what the object itself holds, make up all that
the heap holds (`references_perm`). The same is true of what a search has not seen yet
(`unseen_perm`). -/
namespace OpenVariants.Heap

/-- The values that the living objects refer to, object by object. -/
def references (h : Heap) : List Value := (List.range h.size).flatMap h.children

/-- The values that the objects without a mark refer to. -/
def unseen (h : Heap) (marks : Marks) : List Value :=
  (List.range h.size).flatMap fun id => if marks.getD id false then [] else h.children id

/-- The heap in which one object has died. -/
def without (h : Heap) (id : ObjectId) : Heap := ⟨h.cells.setIfInBounds id none⟩

theorem size_without (h : Heap) (id : ObjectId) : (h.without id).size = h.size := by
  simp [without, size]

theorem object?_without (h : Heap) (id i : ObjectId) :
    (h.without id).object? i = if i = id then none else h.object? i := by
  unfold without object?
  rw [Array.getElem?_setIfInBounds]
  by_cases hi : i = id
  · subst hi
    by_cases hlt : i < h.cells.size <;> simp [hlt]
  · simp [hi, Ne.symm hi]

theorem children_without (h : Heap) (id i : ObjectId) :
    (h.without id).children i = if i = id then [] else h.children i := by
  rw [children, object?_without]
  split <;> rfl

theorem children_of_size_le {h : Heap} {id : ObjectId} (hid : h.size ≤ id) :
    h.children id = [] := by
  have : h.object? id = none := by
    rw [object?, Array.getElem?_eq_none hid]
    rfl
  rw [children, this]
  rfl

/-- What is there for each number is there for one of them and for the others. -/
theorem flatMap_range_perm {α : Type} {n : Nat} (id : Nat) {f g : Nat → List α}
    (hout : n ≤ id → f id = []) (hid : g id = []) (hother : ∀ i, i ≠ id → g i = f i) :
    ((List.range n).flatMap f).Perm (f id ++ (List.range n).flatMap g) := by
  induction n with
  | zero => simp [hout (Nat.zero_le id)]
  | succ n ih =>
    rw [List.range_succ, List.flatMap_append, List.flatMap_append]
    simp only [List.flatMap_cons, List.flatMap_nil, List.append_nil]
    by_cases hn : n = id
    · -- The numbers before this one have the same under both.
      subst hn
      have hsame : (List.range n).flatMap f = (List.range n).flatMap g := by
        simp only [List.flatMap_def]
        refine congrArg List.flatten (List.map_congr_left fun i hi => ?_)
        exact (hother i (Nat.ne_of_lt (List.mem_range.mp hi))).symm
      rw [hid, List.append_nil, hsame]
      exact List.perm_append_comm
    · rw [hother n hn, ← List.append_assoc]
      refine List.Perm.append_right _ (ih fun hle => hout ?_)
      exact Nat.lt_of_le_of_ne hle hn

theorem references_perm (h : Heap) (id : ObjectId) :
    h.references.Perm (h.children id ++ (h.without id).references) := by
  unfold references
  rw [size_without]
  refine flatMap_range_perm id children_of_size_le ?_ fun i hi => ?_
  · rw [children_without, if_pos rfl]
  · rw [children_without, if_neg hi]

theorem unseen_perm (h : Heap) {marks : Marks} {id : ObjectId} (hid : marks[id]? = some false) :
    (h.unseen marks).Perm (h.children id ++ h.unseen (marks.setIfInBounds id true)) := by
  obtain ⟨hlt, hfalse⟩ := Array.getElem?_eq_some_iff.mp hid
  have hold : marks.getD id false = false := by simp [hlt, hfalse]
  have hnew : (marks.setIfInBounds id true).getD id false = true := by simp [hlt]
  have hother : ∀ i, i ≠ id →
      (marks.setIfInBounds id true).getD i false = marks.getD i false := by
    intro i hi
    rw [Array.getD_eq_getD_getElem?, Array.getD_eq_getD_getElem?,
      Array.getElem?_setIfInBounds_ne (Ne.symm hi)]
  refine .trans (flatMap_range_perm id
    (g := fun i => if (marks.setIfInBounds id true).getD i false then [] else h.children i)
    (fun hle => ?_) ?_ fun i hi => ?_) ?_
  · rw [children_of_size_le hle, ite_self]
  · rw [hnew, if_pos rfl]
  · rw [hother i hi]
  · rw [hold]
    exact .refl _

/-- Before a search has seen anything, all is unseen. -/
theorem unseen_replicate (h : Heap) (n : Nat) :
    h.unseen (Array.replicate n false) = h.references := by
  have hnone : ∀ id, (Array.replicate n false).getD id false = false := by
    intro id
    rw [Array.getD_eq_getD_getElem?, Array.getElem?_replicate]
    split <;> rfl
  simp only [unseen, hnone, Bool.false_eq_true, if_false, references]

end OpenVariants.Heap

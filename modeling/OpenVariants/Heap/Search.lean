import OpenVariants.Heap.References
import OpenVariants.Loop

/-! Searching the heap for keys.

A search looks at one value after the other. A value that is compared by identity is
looked for among the targets; if it is none of them, what is inside it is looked at too,
unless that was done before. -/
namespace OpenVariants

/-- Where a search is: which objects it has seen, and what it has still to look at, next
one first. -/
structure Search where
  seen : Heap.Marks
  pending : List Value

namespace Search

/-- At first there is one value to look at. -/
def start (h : Heap) (v : Value) : Search := ⟨Array.replicate h.size false, [v]⟩

/-- One value is looked at. The note is the object, if what is inside it is to be looked at. -/
def round (h : Heap) (targets : List ObjectId) : Search → Round Search ObjectId Bool
  | ⟨_, []⟩ => .done false
  | ⟨seen, v :: rest⟩ =>
    match (Key.ofValue v).object? with
    | none => .again none ⟨seen, rest⟩
    | some id =>
      if targets.contains id then .done true
      else if seen[id]? = some false then
        .again (some id) ⟨seen.setIfInBounds id true, (h.children id).reverse ++ rest⟩
      else .again none ⟨seen, rest⟩

/-- As many values as may still be looked at. -/
def size (h : Heap) (s : Search) : Nat := s.pending.length + (h.unseen s.seen).length

theorem size_lt_of_round {h : Heap} {targets : List ObjectId} {s s' : Search}
    {note : Option ObjectId} (hround : s.round h targets = .again note s') :
    s'.size h < s.size h := by
  unfold round at hround
  split at hround
  · cases hround
  · next seen v rest =>
    have hskip : size h ⟨seen, rest⟩ < size h ⟨seen, v :: rest⟩ :=
      Nat.add_lt_add_right (Nat.lt_succ_self _) _
    split at hround
    · cases hround
      exact hskip
    · next id _ =>
      split at hround
      · cases hround
      · split at hround
        · next hseen =>
          cases hround
          -- What is inside the object was unseen and is now pending.
          have hunseen := (h.unseen_perm hseen).length_eq
          simp only [size, List.length_append, List.length_reverse, List.length_cons] at hunseen ⊢
          omega
        · cases hround
          exact hskip

/-- The search as a loop. -/
def loop (h : Heap) (targets : List ObjectId) : Loop Search ObjectId Bool where
  round := round h targets
  size := size h
  smaller := size_lt_of_round

end Search

namespace Heap

/-- Whether a value is one of the targets or leads to one. -/
def reachesAny (h : Heap) (v : Value) (targets : List ObjectId) : Bool :=
  if targets.isEmpty then false else (Search.loop h targets).run (.start h v)

end Heap

end OpenVariants

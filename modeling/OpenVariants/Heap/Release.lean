import OpenVariants.Heap.References
import OpenVariants.Loop

/-! Letting go of references.

Every object counts the references to it. When the last one is let go of the object
dies, and what it refers to is let go of in its turn: the elements of a list or a record
one after the other, the fields of an instance by a loop that takes the last pending
value first. Where that loop has the last reference to another instance, the fields of
that one become pending as well, so that long chains of instances do not nest. -/
namespace OpenVariants

/-- A heap with a count of the references to each object. -/
structure Counted where
  heap : Heap
  count : ObjectId → Nat

/-- One reference less to an object. If it was the last one the object is dead, and comes
out. -/
def Counted.drop (c : Counted) (id : ObjectId) : Option Object × Counted :=
  let count := fun i => if i = id then c.count id - 1 else c.count i
  if c.count id = 1 then (c.heap.object? id, ⟨c.heap.without id, count⟩)
  else (none, ⟨c.heap, count⟩)

theorem Counted.references_drop (c : Counted) (id : ObjectId) :
    c.heap.references.Perm
      ((c.drop id).1.elim [] Object.children ++ (c.drop id).2.heap.references) := by
  unfold drop
  split
  · have hperm := c.heap.references_perm id
    unfold Heap.children at hperm
    cases ho : c.heap.object? id <;> simpa [ho] using hperm
  · exact .refl _

/-- Values that are to be let go of, next one first: as what is pending in the loop of an
instance, or as elements of a list or a record. -/
structure Activation where
  loop : Bool
  values : List Value

/-- An object that died lets go of what it refers to, before anything else goes on. -/
def Activation.enter (a : Activation) : Object → List Activation
  | .content (.fields _ values) =>
    -- Within a loop the emptied instance has a loop of its own, with nothing pending.
    if a.loop then [⟨true, []⟩, ⟨true, values.reverse ++ a.values⟩]
    else [⟨true, values.reverse⟩, a]
  | o => [⟨false, o.children⟩, a]

theorem Activation.values_enter (a : Activation) (o : Object) :
    ((a.enter o).flatMap values).Perm (o.children ++ a.values) := by
  unfold enter
  split
  · next values =>
    have hfields : (values.reverse ++ a.values).Perm (values ++ a.values) :=
      (List.reverse_perm values).append_right a.values
    split <;> simpa [Object.children, Content.children] using hfields
  · simp

theorem Activation.length_enter (a : Activation) (o : Object) : (a.enter o).length = 2 := by
  unfold enter
  split
  · split <;> rfl
  · rfl

/-- How far a release is: the heap with its counts, and the activations that have not
ended, innermost first. -/
structure Release where
  counted : Counted
  stack : List Activation

namespace Release

/-- Values are let go of, one after the other. -/
def start (c : Counted) (values : List Value) : Release := ⟨c, [⟨false, values⟩]⟩

/-- The values that are still to be let go of. -/
def pending (r : Release) : List Value := r.stack.flatMap Activation.values

/-- The innermost activation lets go of one value, or ends. The note is the object, if one
died. -/
def round : Release → Round Release ObjectId Counted
  | ⟨c, []⟩ => .done c
  | ⟨c, ⟨_, []⟩ :: stack⟩ => .again none ⟨c, stack⟩
  | ⟨c, ⟨loop, v :: values⟩ :: stack⟩ =>
    match v.object? with
    | none => .again none ⟨c, ⟨loop, values⟩ :: stack⟩
    | some id =>
      match c.drop id with
      | (none, c) => .again none ⟨c, ⟨loop, values⟩ :: stack⟩
      | (some o, c) => .again (some id) ⟨c, Activation.enter ⟨loop, values⟩ o ++ stack⟩

/-- Each value counts for two, since it may begin an activation that has to end. -/
def size (r : Release) : Nat :=
  2 * (r.pending.length + r.counted.heap.references.length) + r.stack.length

theorem size_lt_of_round {r r' : Release} {note : Option ObjectId}
    (hround : r.round = .again note r') : r'.size < r.size := by
  unfold round at hround
  split at hround
  · cases hround
  · cases hround
    simp [size, pending]
  · next c loop v values stack =>
    split at hround
    · cases hround
      simp only [size, pending, List.flatMap_cons, List.length_append, List.length_cons]
      omega
    · next id _ =>
      have hreferences := (c.references_drop id).length_eq
      split at hround
      · next c' hdrop =>
        cases hround
        simp only [hdrop, Option.elim, List.nil_append] at hreferences
        simp only [size, pending, List.flatMap_cons, List.length_append, List.length_cons]
        omega
      · next o c' hdrop =>
        cases hround
        have henter := (Activation.values_enter ⟨loop, values⟩ o).length_eq
        have hlength := Activation.length_enter ⟨loop, values⟩ o
        simp only [hdrop, Option.elim, List.length_append] at hreferences henter
        simp only [size, pending, List.flatMap_append, List.flatMap_cons, List.length_append,
          List.length_cons, henter, hlength]
        omega

/-- A release as a loop. -/
def loop : Loop Release ObjectId Counted where
  round := round
  size := size
  smaller := size_lt_of_round

end Release

end OpenVariants

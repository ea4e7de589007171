import OpenVariants.Store.Level
import OpenVariants.Program

/-! The heap: objects by number, living or dead.

A number is given once. An object refers only to objects that were there when it
was made, hence to smaller numbers, so one pass from the last object down to the
first finds everything that a set of values reaches (`marked`). The bodies of
functions and lazies are opaque: nothing is reached through them. -/
namespace OpenVariants

inductive Object where
  | content (c : Content)
  | function (label : Option String) (body : Expr)
  | lazy (body : LazyBody)

namespace Object

/-- The values that an object refers to. -/
def children : Object → List Value
  | content c => c.children
  | function .. | lazy _ => []

end Object

/-- A dead object is `none`. -/
structure Heap where
  cells : Array (Option Object) := #[]

namespace Heap

def size (h : Heap) : Nat := h.cells.size

def object? (h : Heap) (id : ObjectId) : Option Object := h.cells[id]?.join

/-- Whether an object is living. -/
def alive (h : Heap) (id : ObjectId) : Bool := (h.object? id).isSome

/-- A plain value is always there; a reference is while its object lives. -/
def holds (h : Heap) (v : Value) : Bool := v.object?.all h.alive

def content? (h : Heap) (v : Value) : Option Content :=
  match v.object?.bind h.object? with
  | some (.content c) => some c
  | _ => none

/-- The tag and the stored fields of an instance. -/
def instance? (h : Heap) (v : Value) : Option (Tag × List Value) :=
  match v, h.content? v with
  | .inst _, some (.fields tag values) => some (tag, values)
  | _, _ => none

/-- A new object, under the next number. -/
def push (h : Heap) (o : Object) : Heap := ⟨h.cells.push (some o)⟩

/-- The values that an object refers to; a dead one refers to nothing. -/
def children (h : Heap) (id : ObjectId) : List Value :=
  ((h.object? id).map Object.children).getD []

/-! ### Reachability -/

/-- Which objects are known to be reached. -/
abbrev Marks := Array Bool

/-- The objects that the values name are reached. -/
def mark (marks : Marks) (values : List Value) : Marks :=
  values.foldl (fun marks v =>
    match v.object? with
    | some id => marks.setIfInBounds id true
    | none => marks) marks

/-- What the reached ones among the first `n` objects refer to is reached as well. -/
def spread (h : Heap) : Nat → Marks → Marks
  | 0, marks => marks
  | n + 1, marks => h.spread n (if marks.getD n false then mark marks (h.children n) else marks)

/-- What a list of values reaches. -/
def marked (h : Heap) (roots : List Value) : Marks :=
  h.spread h.size (mark (Array.replicate h.size false) roots)

/-- The heap with only what the roots reach living. -/
def collect (h : Heap) (roots : List Value) : Heap :=
  let marks := h.marked roots
  ⟨h.cells.mapIdx fun id cell => if marks.getD id false then cell else none⟩

/-- The heap in which, of the objects from a number on, only those that the owners
reach are living. -/
def reclaim (h : Heap) (since : ObjectId) (owners : List Value) : Heap :=
  let marks := h.marked owners
  ⟨h.cells.mapIdx fun id cell => if id < since || marks.getD id false then cell else none⟩

end Heap

end OpenVariants

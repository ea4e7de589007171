import OpenVariants.Config
import OpenVariants.Store
import OpenVariants.Trait
import OpenVariants.Tree

/-! The world that programs run in. -/
namespace OpenVariants

/-- The context that declarations are made in: limits, counters of ids, and the
canonical store, which maps a tag and field values to their instance. Ids are
32-bit counters and start over when they are used up. -/
structure Registry where
  config : Config
  canonical : Store := ⟨.weak, .nil⟩
  nextTag : UInt32 := 0
  nextData : UInt32 := 0
  /-- Fresh constructions so far, a counter of 64 bits that starts over as well; not
  counted if there are no sweeps. -/
  fresh : UInt64 := 0

/-! ### Nesting of calls -/

/-- How many calls of traits are active.

Calls run in segments. Every segment has a counter of its own, which starts at the
nesting it begins at; `suspended` are the counters of the segments that wait. -/
structure Nesting where
  current : Nat := 0
  suspended : List Nat := []
  deriving DecidableEq, Repr

namespace Nesting

/-- Calls nested within one segment. -/
def segment : Nat := 256

def enter (n : Nesting) : Nesting := {n with current := n.current + 1}

def leave (n : Nesting) : Nesting := {n with current := n.current - 1}

/-- Whether the call just entered begins a segment. -/
def atBoundary (n : Nesting) : Bool := n.current % segment == 0

/-- A new segment with a counter that starts at the current nesting. -/
def suspend (n : Nesting) : Nesting := {n with suspended := n.current :: n.suspended}

/-- Back in the segment that waited. -/
def resume (n : Nesting) : Nesting :=
  match n.suspended with
  | [] => n
  | current :: suspended => ⟨current, suspended⟩

end Nesting

/-! ### The world -/

structure World where
  heap : Heap := {}
  registries : Array Registry := #[]
  traits : Array Trait := #[]
  rules : Array Rules := #[]
  /-- Stores of clients and tables of memoized traits. -/
  stores : Array Store := #[]
  /-- What each knot is tied to, if it is. -/
  knots : Array (Option Value) := #[]
  /-- What names stand for. -/
  bindings : List (String × Binding) := []
  /-- Serials of tags and declarations given out so far. -/
  serials : Nat := 0
  nesting : Nesting := {}
  /-- Lines of the log, last one first. -/
  log : List String := []

namespace World

/-! ### Objects -/

def push (o : Object) (w : World) : World := {w with heap := w.heap.push o}

/-- The number that the next object gets. -/
def nextObject (w : World) : ObjectId := w.heap.size

/-- A new list or record, or an instance, with its content. -/
def newContent (c : Content) (w : World) : Value × World :=
  let id := w.nextObject
  let v := match c with
    | .items _ => Value.list id
    | .entries _ => .record id
    | .fields .. => .inst id
  (v, w.push (.content c))

def newFunction (label : Option String) (body : Expr) (w : World) : Value × World :=
  let id := w.nextObject
  (.function id label, w.push (.function label body))

def newLazy (body : LazyBody) (w : World) : Value × World :=
  let id := w.nextObject
  (.lazy id, w.push (.lazy body))

/-! ### Knots -/

/-- What a knot is tied to, as long as that lives. -/
def knotTarget (id : KnotId) (w : World) : Except Fault Value :=
  match w.knots[id]?.join with
  | none => .error (.construction (.unresolvedField none .untied))
  | some v =>
    if w.heap.holds v then .ok v else .error (.construction (.unresolvedField none .dropped))

/-! ### Names -/

def binding? (name : String) (w : World) : Option Binding := w.bindings.lookup name

/-- A name stands for something else from now on. -/
def bind (name : String) (b : Binding) (w : World) : World :=
  {w with bindings := (name, b) :: w.bindings.filter (·.1 != name)}

def unbind (name : String) (w : World) : World :=
  {w with bindings := w.bindings.filter (·.1 != name)}

/-! ### Questions of programs -/

/-- What the world answers to a question asked within a call, or outside of any. -/
def answer (w : World) (frame : Option Frame) : (q : Query) → q.Answer
  | .content v => w.heap.content? v
  | .written v => w.heap.written v
  | .binding name => w.binding? name
  | .knot id => w.knotTarget id
  | .frame => frame.map Frame.info

/-! ### Living values -/

/-- The values held by a store, if there is such a store. -/
def storeValues (w : World) (id : StoreId) : List Value :=
  ((w.stores[id]?).map (·.root.strongValues)).getD []

/-- The values held by a trait, those in its memo tables included. -/
def traitValues (w : World) (id : TraitId) : List Value :=
  match w.traits[id]? with
  | some t => t.heldValues ++ t.heldStores.flatMap w.storeValues
  | none => []

def facadeValues (w : World) (f : Facade) : List Value :=
  f.data.singletons ++ f.traits.flatMap fun (_, id) => w.traitValues id

/-- The values that a name keeps alive. -/
def bindingValues (w : World) : Binding → List Value
  | .registry _ | .knot _ | .weak _ => []
  | .data d => d.singletons
  | .value v => [v]
  | .pattern p => p.heldValues
  | .rules id => ((w.rules[id]?).map Rules.heldValues).getD []
  | .trait id => w.traitValues id
  | .facade f => w.facadeValues f
  | .view v => .inst v.inst :: w.facadeValues v.facade
  | .method m => m.receiver :: w.traitValues m.trait
  | .store id => w.storeValues id

/-- All that the names keep alive. -/
def roots (w : World) : List Value := w.bindings.flatMap fun (_, b) => w.bindingValues b

/-- The world in which only what the names keep alive is living. -/
def settled (w : World) : World :=
  let roots := w.roots
  {w with heap := w.heap.collect roots}

/-- The world in which what was made from a number on is living only as far as some
store holds it. What is older stays, though a body in progress may have let go of it: that
dies when the command is over. -/
def reclaimed (since : ObjectId) (w : World) : World :=
  if w.heap.size ≤ since then w
  else
    let owners := w.stores.toList.flatMap (·.root.strongValues)
    {w with heap := w.heap.reclaim since owners}

end World

/-! ### Computations on the world -/

/-- Why a computation has no value. -/
inductive Stop where
  | fault (f : Fault)
  /-- More nested bodies than the evaluation allows for. -/
  | exhausted
  deriving DecidableEq, Repr

/-- A computation that may change the world, also when it stops. -/
abbrev Run (α : Type) := ExceptT Stop (StateM World) α

namespace Run

def fail (f : Fault) : Run α := throw (.fault f)

def lift (r : Except Fault α) : Run α :=
  match r with
  | .ok a => pure a
  | .error f => fail f

/-- A change that makes a value. -/
def change (f : World → α × World) : Run α := modifyGet f

end Run

end OpenVariants

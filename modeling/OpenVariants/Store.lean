import OpenVariants.Heap.Search

/-! Stores: one canonical value for each path of keys.

A store that retains strongly keeps its values alive, except that a value which
reaches one of its own reference keys is held weakly, so that no entry keeps its
own key alive. -/
namespace OpenVariants

/-- How a store holds its values. -/
inductive Retention where
  | strong | weak
  deriving DecidableEq, Repr

def Retention.text : Retention → String
  | .strong => "Strong"
  | .weak => "Weak"

/-- The path of a list of values; a path has at least one key. -/
def Key.path (values : List Value) : Except Fault (List Key) :=
  if values.isEmpty then .error .emptyKeyPath else .ok (values.map Key.ofValue)

structure Store where
  retention : Retention
  root : Store.Level := .nil

namespace Store

/-- A value as the store holds it under a path. -/
def stored (h : Heap) (path : List Key) (v : Value) (s : Store) : Stored :=
  match s.retention with
  | .weak => .weak v
  | .strong => if h.reachesAny v (path.filterMap Key.object?) then .weak v else .strong v

/-- The living value under exactly this path. -/
def get? (h : Heap) (path : List Key) (s : Store) : Option Value :=
  s.root.get? h.alive path

/-- Whether a living value is there under exactly this path. -/
def has (h : Heap) (path : List Key) (s : Store) : Bool := (s.get? h path).isSome

def set (h : Heap) (path : List Key) (v : Value) (s : Store) : Store :=
  let held := s.stored h path v
  {s with root := s.root.insert held path}

/-- The living value under a path, or the store with the value put there. -/
def intern (h : Heap) (path : List Key) (v : Value) (s : Store) : Option Value × Store :=
  let held := s.stored h path v
  match s.root.intern h.alive held path with
  | (found, root) => (found, {s with root})

def erase (path : List Key) (s : Store) : Store := {s with root := s.root.erase path}

/-- Whether the value under a path was living, and the store without it. -/
def delete (h : Heap) (path : List Key) (s : Store) : Bool × Store :=
  ((s.root.stored? path).any (·.alive h.alive), s.erase path)

/-- The number of living values. -/
def count (h : Heap) (s : Store) : Nat := s.root.countLive h.alive

/-- How many stored values a purge releases. -/
def released (h : Heap) (s : Store) : Nat := s.root.released h.alive

def purged (h : Heap) (s : Store) : Store := {s with root := s.root.purged h.alive}

def cleared (s : Store) : Store := {s with root := .nil}

end Store

end OpenVariants

import OpenVariants.Value

/-! Keys of stores.

Every value boxes to a key, and two values are the same exactly when their keys
are equal. A plain value boxes to itself, doubles by their normalized pattern; a
labelled function boxes to its label; any other reference boxes to its object.
Only keys of the last sort can die. -/
namespace OpenVariants

inductive Key where
  | null
  | bool (b : Bool)
  | int (i : Int64)
  | big (i : Int)
  | float (bits : UInt64)
  | text (s : String)
  | symbol (name : String)
  /-- A function known by its label. -/
  | label (source : String)
  /-- The variant at the head of a canonical path. -/
  | tag (id : UInt32)
  | object (id : ObjectId)
  deriving Inhabited

namespace Key

/-! ### Equality -/

/-- Equality of keys, objects first: levels with many keys have mostly objects. -/
def same : Key → Key → Bool
  | object a, object b => a == b
  | null, null => true
  | bool a, bool b => a == b
  | int a, int b => a == b
  | big a, big b => a == b
  | float a, float b => a == b
  | text a, text b => a == b
  | symbol a, symbol b => a == b
  | label a, label b => a == b
  | tag a, tag b => a == b
  | _, _ => false

theorem same_iff (a b : Key) : a.same b = true ↔ a = b := by
  cases a <;> cases b <;> simp [same]

instance : DecidableEq Key := fun a b => decidable_of_iff (a.same b) (same_iff a b)

/-! ### Boxing -/

def ofValue : Value → Key
  | .null => null
  | .bool b => bool b
  | .int i => int i
  | .big i => big i
  | .float x => float x.normalized.bits
  | .text s => text s
  | .symbol name => symbol name
  | .function _ (some source) => label source
  | .function id none => object id
  | .list id | .record id | .lazy id | .inst id => object id

def object? : Key → Option ObjectId
  | object id => some id
  | _ => none

/-- Whether a caller can still present the key. -/
def alive (living : ObjectId → Bool) : Key → Bool
  | object id => living id
  | _ => true

end Key

end OpenVariants

import OpenVariants.Kind
import OpenVariants.Number.Double

/-! Values and their sameness.

A value is either plain — it is all there is to it — or it refers to an object of
the heap by the object's number. Plain values are the same when they read the
same; references are the same when they name one object. A function that carries
a label is known by its label. -/
namespace OpenVariants

/-- The number of an object in the heap. Numbers are never used twice. -/
abbrev ObjectId := Nat

/-- The identity of one variant. Tags are told apart by `serial`, which is unique
over all registries; `id` is the number within the registry that made the tag. -/
structure Tag where
  serial : Nat
  id : UInt32
  name : String
  fields : List String
  /-- The id of the declaration that introduced the variant. -/
  owner : UInt32
  deriving DecidableEq, Repr

namespace Tag

def same (a b : Tag) : Bool := a.serial == b.serial

def arity (t : Tag) : Nat := t.fields.length

def isSingleton (t : Tag) : Bool := t.fields.isEmpty

/-- The position of a field. -/
def fieldIndex? (t : Tag) (field : String) : Option Nat := t.fields.findIdx? (· == field)

/-- The name with its fields. -/
def text (t : Tag) : String :=
  if t.isSingleton then t.name else t.name ++ "(" ++ ", ".intercalate t.fields ++ ")"

/-- The name with its number. -/
def numbered (t : Tag) : String := s!"{t.name}#{t.id.toNat}"

end Tag

inductive Value where
  | null
  | bool (b : Bool)
  | int (i : Int64)
  | big (i : Int)
  | float (x : Number.Double)
  | text (s : String)
  | symbol (name : String)
  | list (id : ObjectId)
  | record (id : ObjectId)
  | function (id : ObjectId) (label : Option String)
  | lazy (id : ObjectId)
  | inst (id : ObjectId)
  deriving DecidableEq, Inhabited

namespace Value

def kind : Value → Kind
  | null => .null
  | bool _ => .bool
  | int _ => .int
  | big _ => .big
  | float _ => .float
  | text _ => .text
  | symbol _ => .symbol
  | list _ => .list
  | record _ => .record
  | function .. => .function
  | lazy _ => .lazy
  | inst _ => .inst

/-- The object that a value refers to. -/
def object? : Value → Option ObjectId
  | list id | record id | function id _ | lazy id | inst id => some id
  | _ => none

/-- Whether a value is compared by identity. -/
def isReference (v : Value) : Bool := v.object?.isSome

/-- Equality of values. -/
def same : Value → Value → Bool
  | null, null => true
  | bool a, bool b => a == b
  | int a, int b => a == b
  | big a, big b => a == b
  | float a, float b => a.same b
  | text a, text b => a == b
  | symbol a, symbol b => a == b
  | list a, list b => a == b
  | record a, record b => a == b
  | function _ (some a), function _ (some b) => a == b
  | function a _, function b _ => a == b
  | lazy a, lazy b => a == b
  | inst a, inst b => a == b
  | _, _ => false

/-- Whether two functions, two lazies or two instances are one object. -/
def identical? : Value → Value → Option Bool
  | function a _, function b _ => some (a == b)
  | lazy a, lazy b => some (a == b)
  | inst a, inst b => some (a == b)
  | _, _ => none

/-- The number in a value; integers widen. -/
def float? : Value → Option Number.Double
  | float x => some x
  | int i => some (.ofInt64 i)
  | _ => none

end Value

end OpenVariants

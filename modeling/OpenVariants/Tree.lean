import OpenVariants.Heap

/-! Values unfolded.

A value's tree shows all that can be seen of it without running anything: what is
inside lists, records and instances, to the bottom, and of a function its label.
How a value is written is how its tree is. -/
namespace OpenVariants

inductive Tree where
  | null
  | bool (b : Bool)
  | int (i : Int64)
  | big (i : Int)
  | float (x : Number.Double)
  | text (s : String)
  | symbol (name : String)
  | list (items : List Tree)
  | record (entries : List (String × Tree))
  | function (label : Option String)
  | lazy
  /-- An instance with the name and the id of its tag. -/
  | inst (name : String) (tag : UInt32) (fields : List Tree)
  | dead
  deriving Inhabited

/-- The tree of a value. The first number bounds its depth; objects refer to older
ones, so their number is enough. -/
def Heap.unfold (h : Heap) : Nat → Value → Tree
  | _, .null => .null
  | _, .bool b => .bool b
  | _, .int i => .int i
  | _, .big i => .big i
  | _, .float x => .float x
  | _, .text s => .text s
  | _, .symbol name => .symbol name
  | _, .function _ label => .function label
  | _, .lazy _ => .lazy
  | 0, _ => .dead
  | n + 1, v =>
    match h.content? v with
    | some (.items values) => .list (values.map (h.unfold n))
    | some (.entries values) => .record (values.map fun (key, v) => (key, h.unfold n v))
    | some (.fields tag values) => .inst tag.name tag.id (values.map (h.unfold n))
    | none => .dead

/-- The tree of a value. -/
def Heap.tree (h : Heap) (v : Value) : Tree := h.unfold h.size v

namespace Tree

mutual

/-- How a value is written. Texts stand between quotes as they are, and an
instance without fields is its name alone. -/
def written : Tree → String
  | .null => "null"
  | .bool b => toString b
  | .int i => toString i
  | .big i => toString i ++ "n"
  | .float x => x.text
  | .text s => "\"" ++ s ++ "\""
  | .symbol name => ":" ++ name
  | .list items => Text.enclosed "[" "]" (writtenItems items)
  | .record entries => Text.braced (writtenEntries entries)
  | .function (some label) => s!"<fn {label}>"
  | .function none => "<fn@ADDR>"
  | .lazy => "<lazy>"
  | .inst name _ [] => name
  | .inst name _ fields => name ++ Text.enclosed "(" ")" (writtenItems fields)
  | .dead => "<dead>"

def writtenItems : List Tree → List String
  | [] => []
  | t :: rest => written t :: writtenItems rest

def writtenEntries : List (String × Tree) → List (String × String)
  | [] => []
  | (key, t) :: rest => (key, written t) :: writtenEntries rest

end

end Tree

/-- How a value is written. -/
def Heap.written (h : Heap) (v : Value) : String := (h.tree v).written

end OpenVariants

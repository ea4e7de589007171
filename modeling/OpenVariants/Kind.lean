/-! The twelve kinds of values. -/
namespace OpenVariants

/-- The kind of a value. -/
inductive Kind where
  | null | bool | int | big | float | text | symbol | list | record | function | lazy | inst
  deriving DecidableEq, Repr

/-- The word for a kind, in messages and in patterns. -/
def Kind.name : Kind → String
  | .null => "null"
  | .bool => "bool"
  | .int => "int"
  | .big => "bigint"
  | .float => "float"
  | .text => "string"
  | .symbol => "symbol"
  | .list => "list"
  | .record => "record"
  | .function => "function"
  | .lazy => "lazy"
  | .inst => "instance"

def Kind.all : List Kind :=
  [.null, .bool, .int, .big, .float, .text, .symbol, .list, .record, .function, .lazy, .inst]

/-- The kind with a given name. -/
def Kind.named? (name : String) : Option Kind :=
  Kind.all.find? (·.name == name)

end OpenVariants

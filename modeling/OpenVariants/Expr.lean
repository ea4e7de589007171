import OpenVariants.Value

/-! Expressions: the text of bodies.

Cases, functions, lazies and computed bottoms are written as expressions. An
expression names data, traits, values and knots; the names are looked up each time
it runs, and it holds nothing. -/
namespace OpenVariants

/-- An operation on 64-bit integers. -/
inductive IntOp where
  | add | sub | mul
  deriving DecidableEq, Repr

/-- An operation on doubles. -/
inductive FloatOp where
  | add | mul
  deriving DecidableEq, Repr

/-- A value as it can be written down: a plain one. -/
inductive Literal where
  | null
  | bool (b : Bool)
  | int (i : Int64)
  | big (i : Int)
  | float (x : Number.Double)
  | text (s : String)
  | symbol (name : String)
  deriving DecidableEq, Inhabited

def Literal.value : Literal → Value
  | null => .null
  | bool b => .bool b
  | int i => .int i
  | big i => .big i
  | float x => .float x
  | text s => .text s
  | symbol name => .symbol name

/-- What is written down refers to no object. -/
theorem Literal.object?_value (l : Literal) : l.value.object? = none := by
  cases l <;> rfl

mutual

inductive Expr where
  | literal (l : Literal)
  | list (items : List Expr)
  /-- A repeated key keeps its first position and takes its last value. -/
  | record (entries : List (String × Expr))
  | function (label : Option String) (body : Expr)
  | lazy (body : Expr)
  /-- A lazy that reads a knot. -/
  | knot (name : String)
  /-- The value that a name stands for. -/
  | named (name : String)
  /-- An argument of the running body. -/
  | arg (index : Nat)
  | args
  | argCount
  /-- What an iteration has so far. -/
  | acc
  /-- What an iteration is at. -/
  | item
  /-- Construct from positional arguments. -/
  | new (data variant : String) (args : List Expr)
  /-- Construct from a record. -/
  | newKeyed (data variant : String) (record : Expr)
  /-- Construct from arguments of either form. -/
  | apply (data variant : String) (args : List Expr)
  /-- The instance of a variant without fields. -/
  | unit (data variant : String)
  | field (of : Expr) (name : String)
  | fieldAt (of : Expr) (index : Nat)
  /-- The values of all fields. -/
  | fields (of : Expr)
  /-- The names and values of all fields. -/
  | entries (of : Expr)
  /-- All fields as they are stored. -/
  | stored (of : Expr)
  /-- An item of a list, or null. -/
  | nth (of : Expr) (index : Nat)
  /-- An entry of a record, or null. -/
  | entry (of : Expr) (key : String)
  /-- Call the trait of the running case again. -/
  | recur (args : List Expr)
  /-- Call the base of the trait that has the running case. -/
  | base (args : List Expr)
  /-- The call that the running case belongs to. -/
  | frame
  | call (trait : String) (args : List Expr)
  | invoke (function : Expr) (args : List Expr)
  /-- Evaluate a lazy once; any other value as it is. -/
  | force (of : Expr)
  | int (op : IntOp) (a b : Expr)
  | less (a b : Expr)
  | float (op : FloatOp) (a b : Expr)
  /-- The texts joined. -/
  | concat (parts : List Expr)
  /-- How a value is written. -/
  | written (of : Expr)
  | kind (of : Expr)
  | same (a b : Expr)
  /-- The first branch if the condition is true, else the second. -/
  | cond (condition yes no : Expr)
  | fail (message : String)
  /-- A line for the log, then the expression. -/
  | log (line : String) (then_ : Expr)
  /-- The expression, then its text for the log. -/
  | logged (of : Expr)
  | unify (p : PatternExpr) (of : Expr)
  /-- The body as often as the number says, from a start. -/
  | fold (count : Nat) (start body : Expr)
  /-- The body on each item of a list, from a start. -/
  | reduce (items start body : Expr)
  /-- The value inside that many lists of one item. -/
  | wrap (count : Nat) (of : Expr)

/-- A pattern whose literals are expressions; they are evaluated when it is built. -/
inductive PatternExpr where
  | wildcard
  | literal (e : Expr)
  | record (entries : List (String × PatternExpr))
  | list (items : List PatternExpr)
  | kind (k : Kind)
  | tag (data variant : String)
  | data (name : String)
  | variant (data variant : String) (fields : List PatternExpr)
  /-- The pattern that a name stands for. -/
  | named (name : String)

end

end OpenVariants

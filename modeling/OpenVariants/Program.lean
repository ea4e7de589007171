import OpenVariants.Binding
import OpenVariants.Expr

/-! What a body does, step by step.

A `Program` is a tree that ends with a result or a fault, and until then asks about
the world, makes objects, writes to the log, or requests something that may run
further bodies. A program sees of the world only the answers to its questions; in
particular no program can tell what a sweep of a store removed.

A request may fail. Its continuation receives the fault and may go on; `bind` and
`perform` pass every fault on. -/
namespace OpenVariants

/-- What can be read of a list, a record or an instance. -/
inductive Content where
  | items (values : List Value)
  | entries (values : List (String × Value))
  | fields (tag : Tag) (values : List Value)

namespace Content

/-- The values inside. -/
def children : Content → List Value
  | items values | fields _ values => values
  | entries values => values.map (·.2)

end Content

/-- What a lazy does when it is evaluated. -/
inductive LazyBody where
  | expr (e : Expr)
  /-- Give what a knot is tied to. -/
  | knot (id : KnotId)

/-- What a running case can learn of the call it belongs to. -/
structure FrameInfo where
  /-- The trait that was called. -/
  invoked : String
  memoized : Bool
  /-- The trait in its chain that has the running case. -/
  owner : String
  base? : Option String
  /-- Whether the two are one trait. -/
  own : Bool

/-- A question about the world. -/
inductive Query where
  /-- What is inside a list, a record or an instance. -/
  | content (v : Value)
  /-- How a value is written. -/
  | written (v : Value)
  /-- What a name stands for. -/
  | binding (name : String)
  /-- What a knot is tied to. -/
  | knot (id : KnotId)
  /-- The call that the running case belongs to. -/
  | frame

/-- The kind of answer to a question. -/
abbrev Query.Answer : Query → Type
  | .content _ => Option Content
  | .written _ => String
  | .binding _ => Option Binding
  | .knot _ => Except Fault Value
  | .frame => Option FrameInfo

/-- A step that may run bodies, or may fail. -/
inductive Request where
  /-- Call a trait; the first argument is the receiver. -/
  | call (trait : TraitId) (args : List Value)
  /-- Call the trait of the running case again. -/
  | recur (args : List Value)
  /-- Call the base of the trait that has the running case. -/
  | base (args : List Value)
  /-- Evaluate a lazy. -/
  | force (lazy : ObjectId)
  /-- Call a function. -/
  | apply (function : ObjectId) (args : List Value)
  /-- Read a field of an instance, evaluating a lazy in it. -/
  | read (inst : ObjectId) (index : Nat)
  /-- Whether a value matches a pattern. -/
  | unify (p : Pattern) (v : Value)
  /-- Construct an instance from positional arguments. -/
  | construct (v : Variant) (args : List Value)

inductive Program (α : Type) where
  | done (result : Except Fault α)
  | ask (q : Query) (next : q.Answer → Program α)
  /-- Make a list or a record. -/
  | make (content : Content) (next : Value → Program α)
  | makeFunction (label : Option String) (body : Expr) (next : Value → Program α)
  | makeLazy (body : LazyBody) (next : Value → Program α)
  | log (line : String) (next : Program α)
  | request (r : Request) (next : Except Fault Value → Program α)

/-- A body that takes arguments. -/
abbrev Handler := List Value → Program Value

namespace Program

def fail (fault : Fault) : Program α := done (.error fault)

/-- A result that may be a fault. -/
def lift (result : Except Fault α) : Program α := done result

/-- The first program, then the second on its result; a fault of the first is the
result of both. -/
def bind : Program α → (α → Program β) → Program β
  | done (.ok a), f => f a
  | done (.error fault), _ => done (.error fault)
  | ask q next, f => ask q fun answer => (next answer).bind f
  | make content next, f => make content fun v => (next v).bind f
  | makeFunction label body next, f => makeFunction label body fun v => (next v).bind f
  | makeLazy body next, f => makeLazy body fun v => (next v).bind f
  | log line next, f => log line (next.bind f)
  | request r next, f => request r fun result => (next result).bind f

instance : Monad Program where
  pure a := done (.ok a)
  bind := bind

/-- A question, with its answer. -/
def query (q : Query) : Program q.Answer := ask q Pure.pure

/-- A request, with its result. -/
def perform (r : Request) : Program Value := request r done

/-- A new list, record or instance. -/
def new (content : Content) : Program Value := make content Pure.pure

/-- A new list. -/
def newList (values : List Value) : Program Value := new (.items values)

/-- A fault that names what was found. -/
def unexpected (what : Expectation) (found : Value) : Program α := do
  fail (.program (.expected what (← query (.written found))))

end Program

end OpenVariants

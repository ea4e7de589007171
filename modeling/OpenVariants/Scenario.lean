import OpenVariants.Definition

/-! Small programs that show each part of the library. -/
namespace OpenVariants

/-- A program on a registry. -/
structure Scenario where
  name : String
  description : String
  run : RegistryId → Run Value

namespace Scenario

/-! ### Parts of bodies -/

/-- A field of the receiver. -/
def receiverField (args : List Value) (name : String) : Program Value :=
  Program.readField (args.head?.getD .null) name

/-- A double field of the receiver. -/
def receiverNumber (args : List Value) (name : String) : Program Number.Double := do
  Program.expectFloat (← receiverField args name)

/-- The trait again, on one field of the receiver. -/
def recurOn (args : List Value) (name : String) : Program Value := do
  Program.perform (.recur [← receiverField args name])

/-- A text from the results of the trait on fields, between other texts. -/
def assembled (args : List Value) (start : String) : List (String × String) → Program Value
  | [] => pure (.text start)
  | (name, next) :: rest => do
    let part ← Program.plainText (← recurOn args name)
    assembled args (start ++ part ++ next) rest

/-- A list as a new object. -/
def list (values : List Value) : Run Value := Run.change (World.newContent (.items values))

def namedTrait (id : TraitId) : Run Trait := do
  match (← get).traits[id]? with
  | some t => pure t
  | none => Run.fail (.program (.noEntry "trait" s!"{id}"))

/-! ### Shapes -/

/-- The ratio of a circle's circumference to its diameter. -/
def pi : Number.Double := ⟨0x400921fb54442d18⟩

/-- The area of circles and rectangles. -/
def shapes (r : RegistryId) : Run Value := do
  let shape ← declare r "Shape" none
    [⟨"Circle", ["radius"]⟩, ⟨"Rectangle", ["width", "height"]⟩]
  let area ← defineTrait r "area" (some shape) none
    [("Circle", .handler fun args => do
        let radius ← receiverNumber args "radius"
        pure (.float ((pi.mul radius).mul radius))),
      ("Rectangle", .handler fun args => do
        let width ← receiverNumber args "width"
        let height ← receiverNumber args "height"
        pure (.float (width.mul height)))]
  let circle ← (← Run.lift (shape.variant "Circle")).construct [.int 2]
  let rectangle ← (← Run.lift (shape.variant "Rectangle")).construct [.int 2, .int 3]
  let areas := [← callTrait area [circle], ← callTrait area [rectangle]]
  list areas

/-! ### Natural numbers -/

/-- Peano numbers, and successors that are shared. -/
def peano (r : RegistryId) : Run Value := do
  let nat ← declare r "Peano" none [⟨"Zero", []⟩, ⟨"Succ", ["pred"]⟩]
  let value ← defineTrait r "value" (some nat) none
    [("Zero", .handler fun _ => pure (.int 0)),
      ("Succ", .handler fun args => do
        let n ← Program.expectInt (← recurOn args "pred")
        pure (.int (n + 1)))]
  let succ ← Run.lift (nat.variant "Succ")
  let zero ← Run.lift (nat.unit "Zero")
  let one ← succ.construct [zero]
  let two ← succ.construct [one]
  let again ← succ.construct [zero]
  let number ← callTrait value [two]
  list [number, .bool (one.same again)]

/-! ### Lists -/

/-- Lists as data: empty, or a head and a tail. -/
def declareList (r : RegistryId) : Run Data :=
  declare r "List" none [⟨"Nil", []⟩, ⟨"Cons", ["head", "tail"]⟩]

/-- The rule for lists with a head, whatever they are joined with. -/
def consRule (cons : Variant) : Rule where
  patterns := [.wildcard, .wildcard]
  handler args := do
    let tail ← receiverField args "tail"
    let rest ← Program.perform (.recur [tail, (args[1]?).getD .null])
    let head ← receiverField args "head"
    Program.perform (.construct cons [head, rest])

/-- Concatenation of lists. -/
def defineConcat (r : RegistryId) (data : Data) : Run TraitId := do
  let cons ← Run.lift (data.variant "Cons")
  let rules ← Run.lift (Rules.ofList [consRule cons])
  defineTrait r "concat" (some data) none
    [("Nil", .handler fun args => pure ((args[1]?).getD .null)), ("Cons", .rules rules)]

/-- The list of some integers. -/
def listOf (nil : Value) (cons : Variant) : List Int64 → Run Value
  | [] => pure nil
  | head :: rest => do
    let tail ← listOf nil cons rest
    cons.construct [.int head, tail]

/-- Concatenation gives the very list that is built directly. -/
def concat (r : RegistryId) : Run Value := do
  let data ← declareList r
  let concat ← defineConcat r data
  let cons ← Run.lift (data.variant "Cons")
  let nil ← Run.lift (data.unit "Nil")
  let left ← listOf nil cons [1, 2]
  let right ← listOf nil cons [3]
  let joined ← callTrait concat [left, right]
  let expected ← listOf nil cons [1, 2, 3]
  list [joined, .bool (joined.same expected)]

/-! ### Expressions -/

/-- A literal prints as its value. -/
def printValue : Handler := fun args => do
  pure (.text (← Program.plainText (← receiverField args "value")))

/-- Printing an expression language, then an extension of it. -/
def print (r : RegistryId) : Run Value := do
  let intExp ← declare r "IntExp" none [⟨"Lit", ["value"]⟩, ⟨"Add", ["left", "right"]⟩]
  let intBoolExp ← declare r "IntBoolExp" (some intExp)
    [⟨"Bool", ["value"]⟩, ⟨"Iff", ["pred", "ifTrue", "ifFalse"]⟩]
  let intPrint ← defineTrait r "print" (some intExp) none
    [("Lit", .handler printValue),
      ("Add", .handler fun args => assembled args "(" [("left", " + "), ("right", ")")])]
  let base ← namedTrait intPrint
  let intBoolPrint ← defineTrait r "print" (some intBoolExp) (some base)
    [("Bool", .handler printValue),
      ("Iff", .handler fun args =>
        assembled args "(" [("pred", " ? "), ("ifTrue", " : "), ("ifFalse", ")")])]
  let lit ← Run.lift (intBoolExp.variant "Lit")
  let condition ← (← Run.lift (intBoolExp.variant "Bool")).construct [.bool true]
  let yes ← lit.construct [.int 1]
  let no ← lit.construct [.int 2]
  let e ← (← Run.lift (intBoolExp.variant "Iff")).construct [condition, yes, no]
  callTrait intBoolPrint [e]

/-! ### Fixed points -/

/-- The value of a computation, or the message of its fault as a text. -/
def valueOrMessage (x : Run Value) : Run Value := fun w =>
  match x w with
  | (.error (.fault f), w) => (.ok (.text f.message), w)
  | r => r

/-- Recursion without end, plain and memoized. -/
def fixpoint (r : RegistryId) : Run Value := do
  let data ← declare r "Loop" none [⟨"Again", []⟩]
  let forever ← defineTrait r "forever" (some data) none
    [("Again", .handler fun args => Program.perform (.recur args))]
  let again ← Run.lift (data.unit "Again")
  let direct ← valueOrMessage (callTrait forever [again])
  let memo ← memoize (← namedTrait forever) (.value (.text "bottom"))
  let memoized ← callTrait memo [again]
  Run.change (World.newContent (.entries [("direct", direct), ("memoized", memoized)]))

/-! ### All of them -/

def all : List Scenario :=
  [⟨"shapes", "area of circles and rectangles", shapes⟩,
    ⟨"peano", "Peano naturals and shared successors", peano⟩,
    ⟨"concat", "list concatenation by pattern rules", concat⟩,
    ⟨"print", "printing an extended expression language", print⟩,
    ⟨"fixpoint", "unbounded self-recursion with and without memo_fix", fixpoint⟩]

def find? (name : String) : Option Scenario := all.find? (·.name == name)

/-- Run a scenario on a registry of its own, in a world of its own. -/
def start (s : Scenario) (config : Config) : Except Stop Value × World :=
  let (r, w) := World.addRegistry config {}
  s.run r w

end Scenario

end OpenVariants

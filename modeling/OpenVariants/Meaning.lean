import OpenVariants.Arguments
import OpenVariants.Trait

/-! The meaning of expressions: the program that an expression stands for.

Operands are evaluated from left to right, and each is checked before the next one
is evaluated. Names of data, variants and traits are looked up before arguments are
evaluated. -/
namespace OpenVariants

/-- What an expression sees around it. -/
structure Scope where
  args : List Value := []
  /-- Whether this is the body of a case, which may call its trait again. -/
  inCase : Bool := false
  acc : Option Value := none
  item : Option Value := none

namespace Program

/-! ### Names -/

/-- What a name stands for, in the role that is asked of it. -/
def lookUp (role name : String) (select : Binding → Option α) : Program α := do
  match (← query (.binding name)).bind select with
  | some a => pure a
  | none => fail (.program (.noEntry role name))

end Program

namespace Binding

def value? : Binding → Option Value
  | value v => some v
  | _ => none

def data? : Binding → Option Data
  | data d => some d
  | _ => none

def trait? : Binding → Option TraitId
  | trait id => some id
  | _ => none

def pattern? : Binding → Option Pattern
  | pattern p => some p
  | _ => none

def knot? : Binding → Option KnotId
  | knot id => some id
  | _ => none

end Binding

namespace Program

def namedValue (name : String) : Program Value := lookUp "value" name Binding.value?

def namedData (name : String) : Program Data := lookUp "data" name Binding.data?

def namedTrait (name : String) : Program TraitId := lookUp "trait" name Binding.trait?

/-- A variant of the data that a name stands for. -/
def namedVariant (data variant : String) : Program Variant := do
  lift ((← namedData data).variant variant)

/-! ### Parts of values -/

/-- The tag, the fields and the number of an instance. -/
def expectInstance (v : Value) : Program (ObjectId × Tag × List Value) := do
  match v, ← query (.content v) with
  | .inst id, some (.fields tag values) => pure (id, tag, values)
  | _, _ => unexpected .inst v

def expectRecord (v : Value) : Program (List (String × Value)) := do
  match v, ← query (.content v) with
  | .record _, some (.entries entries) => pure entries
  | _, _ => unexpected .record v

def expectInt (v : Value) : Program Int64 :=
  match v with
  | .int i => pure i
  | v => unexpected .integer v

def expectFloat (v : Value) : Program Number.Double :=
  match v.float? with
  | some x => pure x
  | none => unexpected .number v

/-- The items of a list; anything else has none. -/
def itemsOf (v : Value) : Program (List Value) := do
  match v, ← query (.content v) with
  | .list _, some (.items values) => pure values
  | _, _ => pure []

/-- The entries of a record; anything else has none. -/
def entriesOf (v : Value) : Program (List (String × Value)) := do
  match v, ← query (.content v) with
  | .record _, some (.entries entries) => pure entries
  | _, _ => pure []

/-- The characters of a text, or how any other value is written. -/
def plainText (v : Value) : Program String :=
  match v with
  | .text s => pure s
  | v => query (.written v)

/-! ### Fields -/

/-- A field by name. -/
def readField (v : Value) (name : String) : Program Value := do
  let (id, tag, _) ← expectInstance v
  match tag.fieldIndex? name with
  | some index => perform (.read id index)
  | none => fail (.construction (.unknownField tag.name name))

/-- A field by position. -/
def readFieldAt (v : Value) (index : Nat) : Program Value := do
  let (id, _, _) ← expectInstance v
  perform (.read id index)

/-- The fields of an instance from a position on, read in order. -/
def readFields (id : ObjectId) : (count index : Nat) → Program (List Value)
  | 0, _ => pure []
  | n + 1, index => do
    let v ← perform (.read id index)
    let rest ← readFields id n (index + 1)
    pure (v :: rest)

/-- The fields with their names, each in a list of two. -/
def readEntries (id : ObjectId) : List String → (index : Nat) → Program (List Value)
  | [], _ => pure []
  | name :: names, index => do
    let v ← perform (.read id index)
    let pair ← newList [.text name, v]
    let rest ← readEntries id names (index + 1)
    pure (pair :: rest)

/-! ### Construction -/

/-- An instance from keyed arguments. -/
def constructKeyed (v : Variant) (entries : List (String × Value)) : Program Value := do
  perform (.construct v (← lift (v.keyed entries)))

/-- An instance from arguments of either form. -/
def constructApply (v : Variant) (args : List Value) : Program Value := do
  match args with
  | [.record id] =>
    let entries ← entriesOf (.record id)
    perform (.construct v (← lift (v.ofRecord args entries)))
  | args => perform (.construct v args)

/-! ### Repetition -/

/-- What only an iteration has. -/
def ofIteration : Option Value → Program Value
  | some v => pure v
  | none => fail (.program .noIteration)

/-- The body with the numbers from `index` on, as often as the count says. -/
def iterate (body : Nat → Value → Program Value) : (count index : Nat) → Value → Program Value
  | 0, _, acc => pure acc
  | n + 1, index, acc => do
    let acc ← body index acc
    iterate body n (index + 1) acc

/-- The body on each of the items. -/
def reduceItems (body : Value → Value → Program Value) : List Value → Value → Program Value
  | [], acc => pure acc
  | item :: rest, acc => do
    let acc ← body item acc
    reduceItems body rest acc

/-- A value inside that many lists. -/
def wrapped : Nat → Value → Program Value
  | 0, v => pure v
  | n + 1, v => do wrapped n (← newList [v])

end Program

/-! ### Numbers -/

/-- An integer of 64 bits, unless it takes more. -/
def int64? (i : Int) : Option Int64 :=
  if Int64.minValue.toInt ≤ i && i ≤ Int64.maxValue.toInt then some (Int64.ofInt i) else none

def IntOp.eval : IntOp → Int → Int → Int
  | .add => (· + ·)
  | .sub => (· - ·)
  | .mul => (· * ·)

def FloatOp.eval : FloatOp → Number.Double → Number.Double → Number.Double
  | .add => .add
  | .mul => .mul

/-- Entries with each key once: at its first position, with its last value. -/
def distinctEntries (entries : List (String × Value)) : List (String × Value) :=
  entries.foldl (fun done (key, v) =>
    if done.any (·.1 == key) then done.map fun e => if e.1 == key then (key, v) else e
    else done ++ [(key, v)]) []

/-- What a case learns of its call, as values. The name that the call goes by is the
invoked trait's. -/
def FrameInfo.values (info : FrameInfo) : List Value :=
  [.text info.invoked, .text info.invoked, .bool info.memoized, .text info.owner,
    (info.base?.map Value.text).getD .null, .bool info.own]

/-! ### Expressions -/

mutual

/-- The program of an expression in a scope. -/
def Expr.meaning (e : Expr) (s : Scope) : Program Value :=
  match e with
  | .literal l => pure l.value
  | .list items => do Program.newList (← meanings items s)
  | .record entries => do Program.new (.entries (distinctEntries (← entryMeanings entries s)))
  | .function label body => .makeFunction label body pure
  | .lazy body => .makeLazy (.expr body) pure
  | .knot name => do
    let id ← Program.lookUp "knot" name Binding.knot?
    .makeLazy (.knot id) pure
  | .named name => Program.namedValue name
  | .arg index =>
    match s.args[index]? with
    | some v => pure v
    | none => Program.fail (.program (.noArgument index))
  | .args => Program.newList s.args
  | .argCount => pure (.int (Int64.ofNat s.args.length))
  | .acc => Program.ofIteration s.acc
  | .item => Program.ofIteration s.item
  | .new data variant args => do
    let v ← Program.namedVariant data variant
    Program.perform (.construct v (← meanings args s))
  | .newKeyed data variant record => do
    let v ← Program.namedVariant data variant
    Program.constructKeyed v (← Program.expectRecord (← record.meaning s))
  | .apply data variant args => do
    let v ← Program.namedVariant data variant
    Program.constructApply v (← meanings args s)
  | .unit data variant => do
    Program.lift ((← Program.namedData data).unit variant)
  | .field of name => do Program.readField (← of.meaning s) name
  | .fieldAt of index => do Program.readFieldAt (← of.meaning s) index
  | .fields of => do
    let (id, _, values) ← Program.expectInstance (← of.meaning s)
    Program.newList (← Program.readFields id values.length 0)
  | .entries of => do
    let (id, tag, _) ← Program.expectInstance (← of.meaning s)
    Program.newList (← Program.readEntries id tag.fields 0)
  | .stored of => do
    let (_, _, values) ← Program.expectInstance (← of.meaning s)
    Program.newList values
  | .nth of index => do
    let values ← Program.itemsOf (← of.meaning s)
    pure ((values[index]?).getD .null)
  | .entry of key => do
    let entries ← Program.entriesOf (← of.meaning s)
    pure ((entries.lookup key).getD .null)
  | .recur args =>
    if s.inCase then do Program.perform (.recur (← meanings args s))
    else Program.fail (.program .noDispatch)
  | .base args =>
    if s.inCase then do Program.perform (.base (← meanings args s))
    else Program.fail (.program .noDispatch)
  | .frame =>
    if s.inCase then do
      match ← Program.query .frame with
      | some info => Program.newList info.values
      | none => Program.fail (.program .noDispatch)
    else Program.fail (.program .noDispatch)
  | .call trait args => do
    let id ← Program.namedTrait trait
    Program.perform (.call id (← meanings args s))
  | .invoke function args => do
    let f ← function.meaning s
    let args ← meanings args s
    match f with
    | .function id _ => Program.perform (.apply id args)
    | v => Program.unexpected .function v
  | .force of => do
    match ← of.meaning s with
    | .lazy id => Program.perform (.force id)
    | v => pure v
  | .int op a b => do
    let x ← Program.expectInt (← a.meaning s)
    let y ← Program.expectInt (← b.meaning s)
    match int64? (op.eval x.toInt y.toInt) with
    | some i => pure (.int i)
    | none => Program.fail (.program .overflow)
  | .less a b => do
    let x ← Program.expectInt (← a.meaning s)
    let y ← Program.expectInt (← b.meaning s)
    pure (.bool (decide (x < y)))
  | .float op a b => do
    let x ← Program.expectFloat (← a.meaning s)
    let y ← Program.expectFloat (← b.meaning s)
    pure (.float (op.eval x y))
  | .concat parts => do pure (.text (String.join (← plainTexts parts s)))
  | .written of => do pure (.text (← Program.query (.written (← of.meaning s))))
  | .kind of => do pure (.text (← of.meaning s).kind.name)
  | .same a b => do
    let x ← a.meaning s
    let y ← b.meaning s
    pure (.bool (x.same y))
  | .cond condition yes no => do
    match ← condition.meaning s with
    | .bool true => yes.meaning s
    | _ => no.meaning s
  | .fail message => Program.fail (.program (.raised message))
  | .log line rest => .log line (rest.meaning s)
  | .logged of => do
    let v ← of.meaning s
    .log (← Program.plainText v) (pure v)
  | .unify p of => do
    let p ← p.build s
    let v ← of.meaning s
    Program.perform (.unify p v)
  | .fold count start body => do
    Program.iterate (fun index acc =>
      body.meaning {s with acc := some acc, item := some (.int (Int64.ofNat index))})
      count 0 (← start.meaning s)
  | .reduce list start body => do
    let items ← Program.itemsOf (← list.meaning s)
    Program.reduceItems (fun item acc =>
      body.meaning {s with acc := some acc, item := some item})
      items (← start.meaning s)
  | .wrap count of => do Program.wrapped count (← of.meaning s)
/-- Expressions from left to right. -/
def meanings (es : List Expr) (s : Scope) : Program (List Value) :=
  match es with
  | [] => pure []
  | e :: rest => do
    let v ← e.meaning s
    let values ← meanings rest s
    pure (v :: values)

def entryMeanings (entries : List (String × Expr)) (s : Scope) :
    Program (List (String × Value)) :=
  match entries with
  | [] => pure []
  | (key, e) :: rest => do
    let v ← e.meaning s
    let values ← entryMeanings rest s
    pure ((key, v) :: values)

/-- The texts of the values of expressions. -/
def plainTexts (es : List Expr) (s : Scope) : Program (List String) :=
  match es with
  | [] => pure []
  | e :: rest => do
    let text ← Program.plainText (← e.meaning s)
    let texts ← plainTexts rest s
    pure (text :: texts)

/-- The pattern of an expression for one. -/
def PatternExpr.build (p : PatternExpr) (s : Scope) : Program Pattern :=
  match p with
  | .wildcard => pure .wildcard
  | .literal e => do pure (.literal (← e.meaning s))
  | .record entries => do pure (.record (← buildEntries entries s))
  | .list items => do pure (.list (← buildItems items s))
  | .kind k => pure (.kind k)
  | .tag data variant => do pure (.tag (← Program.namedVariant data variant).tag)
  | .data name => do pure (.data (← Program.namedData name))
  | .variant data variant fields => do
    let v ← Program.namedVariant data variant
    Program.lift (Pattern.ofVariant v (← buildItems fields s))
  | .named name => Program.lookUp "pattern" name Binding.pattern?

def buildItems (ps : List PatternExpr) (s : Scope) : Program (List Pattern) :=
  match ps with
  | [] => pure []
  | p :: rest => do
    let p ← p.build s
    let patterns ← buildItems rest s
    pure (p :: patterns)

def buildEntries (ps : List (String × PatternExpr)) (s : Scope) :
    Program (List (String × Pattern)) :=
  match ps with
  | [] => pure []
  | (key, p) :: rest => do
    let p ← p.build s
    let patterns ← buildEntries rest s
    pure ((key, p) :: patterns)

end

/-- The body of a case. -/
def Expr.asCase (e : Expr) : Handler := fun args => e.meaning {args, inCase := true}

/-- The body of a function or of a computed bottom. -/
def Expr.asFunction (e : Expr) : Handler := fun args => e.meaning {args}

/-- What a lazy does. -/
def LazyBody.program : LazyBody → Program Value
  | .expr e => e.meaning {}
  | .knot id => do Program.lift (← Program.query (.knot id))

end OpenVariants

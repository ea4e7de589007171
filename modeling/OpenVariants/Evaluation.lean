import OpenVariants.Construction
import OpenVariants.Meaning

/-! Running programs.

A program runs step by step (`Program.run`), structurally; what it requests of
other bodies is handed to a *performer*. `perform n` is the performer that allows
for `n` nested bodies: it answers a request with the performer of `n - 1`. So the
bound limits nesting alone, never the length of a run.

Everything between a request and the bodies it runs is here: unification, the
choice of a rule, dispatch, memo tables, and the guard on the nesting of calls. -/
namespace OpenVariants

/-- Answers requests, on behalf of the call in progress. -/
abbrev Performer := Option Frame → Request → Run Value

/-! ### Stepping -/

/-- A program from its first step to its result. -/
def Program.run (perform : Performer) (frame : Option Frame) : Program α → Run α
  | .done result => Run.lift result
  | .ask q next => do
    let w ← get
    (next (w.answer frame q)).run perform frame
  | .make content next => do
    let v ← Run.change (World.newContent content)
    (next v).run perform frame
  | .makeFunction label body next => do
    let v ← Run.change (World.newFunction label body)
    (next v).run perform frame
  | .makeLazy body next => do
    let v ← Run.change (World.newLazy body)
    (next v).run perform frame
  | .log line next => do
    modify fun w => {w with log := line :: w.log}
    next.run perform frame
  | .request r next => fun w =>
    match perform frame r w with
    | (.ok v, w) => (next (.ok v)).run perform frame w
    | (.error (.fault f), w) => (next (.error f)).run perform frame w
    | (.error .exhausted, w) => (.error .exhausted, w)

/-! ### Fields -/

/-- A computation whose fault learns at which field it arose. -/
def Run.at (site : FieldSite) (x : Run α) : Run α := fun w =>
  match x w with
  | (.error (.fault f), w) => (.error (.fault (f.located site)), w)
  | r => r

/-- The value of a field: what is stored there, or what a lazy there gives. -/
def readField (perform : Performer) (tag : Tag) (index : Nat) (stored : Value) : Run Value :=
  match stored with
  | .lazy id => Run.at ⟨tag.name, (tag.fields[index]?).getD ""⟩ (perform none (.force id))
  | v => pure v

/-- The fields of an instance in order, each to be read when it is needed. -/
def fieldReads (perform : Performer) (tag : Tag) (values : List Value) : List (Run Value) :=
  values.mapIdx fun index v => readField perform tag index v

/-- A field by its position; there may be none. -/
def indexedRead (perform : Performer) (tag : Tag) (values : List Value) (index : Nat) : Run Value :=
  match values[index]? with
  | some v => readField perform tag index v
  | none => Run.fail (.construction (.unknownField tag.name s!"#{index}"))

/-- A field of an instance by its position. -/
def readAt (perform : Performer) (id : ObjectId) (index : Nat) : Run Value := do
  let w ← get
  match w.heap.instance? (.inst id) with
  | none => pure .null
  | some (tag, values) => indexedRead perform tag values index

/-! ### Unification -/

mutual

/-- Whether a value matches a pattern. Fields of instances are read from left to
right as far as they are needed. -/
def unify (perform : Performer) : Pattern → Value → Run Bool
  | .wildcard, _ => pure true
  | .literal expected, v => pure (v.same expected)
  | .kind k, v => pure (v.kind == k)
  | .tag t, v => do
    let w ← get
    pure ((w.heap.instance? v).any fun (tag, _) => tag.same t)
  | .data d, v => do
    let w ← get
    pure ((w.heap.instance? v).any fun (tag, _) => d.hasTag tag)
  | .record entries, v => do
    let w ← get
    match v, w.heap.content? v with
    | .record _, some (.entries values) =>
      unifyEntries perform entries fun key => (values.lookup key).map pure
    | .inst _, some (.fields tag values) =>
      let reads := fieldReads perform tag values
      unifyEntries perform entries fun key => (tag.fieldIndex? key).bind (reads[·]?)
    | _, _ => pure false
  | .list items, v => do
    let w ← get
    match v, w.heap.content? v with
    | .list _, some (.items values) =>
      if values.length = items.length then unifyItems perform items (values.map pure)
      else pure false
    | .inst _, some (.fields tag values) =>
      if values.length = items.length then
        unifyItems perform items (fieldReads perform tag values)
      else pure false
    | _, _ => pure false
  | .variant t fields, v => do
    let w ← get
    match w.heap.instance? v with
    | some (tag, values) =>
      if tag.same t then
        unifyItems perform fields
          (fields.mapIdx fun index _ => indexedRead perform tag values index)
      else pure false
    | none => pure false

/-- Whether values match patterns one by one. -/
def unifyItems (perform : Performer) : List Pattern → List (Run Value) → Run Bool
  | p :: patterns, read :: reads => do
    if ← unify perform p (← read) then unifyItems perform patterns reads else pure false
  | _, _ => pure true

/-- Whether every key is there with a value that matches. -/
def unifyEntries (perform : Performer) :
    List (String × Pattern) → (String → Option (Run Value)) → Run Bool
  | [], _ => pure true
  | (key, p) :: rest, read? =>
    match read? key with
    | none => pure false
    | some read => do
      if ← unify perform p (← read) then unifyEntries perform rest read? else pure false

end

/-! ### Rules and cases -/

/-- Whether all patterns of a rule match; an argument that is not there is null. -/
def Rule.matches (perform : Performer) (args : List Value) (rule : Rule) : Run Bool :=
  unifyItems perform rule.patterns
    (rule.patterns.mapIdx fun index _ => pure ((args[index]?).getD .null))

/-- The first rule that matches. -/
def Rules.select (perform : Performer) (args : List Value) : List Rule → Run (Option Rule)
  | [] => pure none
  | rule :: rest => do
    if ← rule.matches perform args then pure (some rule) else Rules.select perform args rest

/-- A case on the arguments of its call. -/
def Case.run (perform : Performer) (frame : Frame) (name : String) (args : List Value) :
    Case → Run Value
  | .handler body => (body args).run perform (some frame)
  | .rules list => do
    match ← Rules.select perform args list.rules with
    | some rule => (rule.handler args).run perform (some frame)
    | none =>
      let w ← get
      let argument := w.heap.written (args.head?.getD .null)
      Run.fail (.dispatch (.noRule frame.invoked.name name argument))

/-! ### Calls -/

/-- The name by which a call looks for a case; a value that is no instance has none. -/
def World.receiver (w : World) (v : Value) : Receiver :=
  match w.heap.instance? v with
  | some (tag, _) => .tagged tag.name
  | none => .untagged v.kind

def Receiver.caseName : Receiver → String
  | .tagged variant => variant
  | .untagged _ => ""

/-- Find the case for the receiver and run it. -/
def Trait.dispatch (perform : Performer) (t : Trait) (receiver : Value) (args : List Value) :
    Run Value := do
  let w ← get
  let on := w.receiver receiver
  match t.resolve? on.caseName with
  | some found => found.case.run perform ⟨t, found.owner⟩ found.name args
  | none => Run.fail (.dispatch (.noCase t.name on))

/-- The bottom for the arguments of a call. -/
def Bottom.run (perform : Performer) (args : List Value) : Bottom → Run Value
  | .value v => pure v
  | .compute body => (body args).run perform none

namespace World

/-- The living value that a store has under a path. -/
def stored? (id : StoreId) (path : List Key) (w : World) : Option Value :=
  (w.stores[id]?).bind (·.get? w.heap path)

/-- A store changed; a number without a store changes nothing. -/
def updateStore (id : StoreId) (change : Heap → Store → Store) (w : World) : World :=
  let heap := w.heap
  {w with stores := w.stores.modify id (change heap)}

def storeSet (id : StoreId) (path : List Key) (v : Value) (w : World) : World :=
  w.updateStore id fun heap => Store.set heap path v

def storeErase (id : StoreId) (path : List Key) (w : World) : World :=
  w.updateStore id fun _ => Store.erase path

end World

/-- A call through a memo table that does not have the arguments. The bottom goes
into the table while the case runs; then the result replaces it, or nothing does if
the case fails.

The table is all that owns the bottom then: if it holds the bottom weakly, what was
made for it dies at once, unless some other store holds that. -/
def Memo.fill (perform : Performer) (memo : Memo) (t : Trait) (receiver : Value)
    (args : List Value) (path : List Key) : Run Value := do
  let since := (← get).nextObject
  let bottom ← memo.bottom.run perform args
  modify fun w => (w.storeSet memo.store path bottom).reclaimed since
  fun w =>
    match t.dispatch perform receiver args w with
    | (.ok v, w) => (.ok v, w.storeSet memo.store path v)
    | (.error stop, w) => (.error stop, w.storeErase memo.store path)

/-- A call through a memo table. What the table has is the answer. -/
def Memo.call (perform : Performer) (memo : Memo) (t : Trait) (receiver : Value)
    (args : List Value) : Run Value := do
  let path ← Run.lift (Key.path args)
  match (← get).stored? memo.store path with
  | some hit => pure hit
  | none => memo.fill perform t receiver args path

/-- The computation on a stack of its own. -/
def Run.onFreshStack (x : Run α) : Run α := fun w =>
  (Task.spawn (fun _ => x w) .dedicated).get

/-- The body of a call in its segment: at a boundary a new segment begins, with a
counter and a stack of its own. -/
def Run.inSegment (body : Run α) : Run α := fun w =>
  if w.nesting.atBoundary then
    let (result, w) := body.onFreshStack {w with nesting := w.nesting.suspend}
    (result, {w with nesting := w.nesting.resume})
  else body w

/-- A call counts as active while its body runs; it does not start when as many
calls are active as the trait allows. -/
def Trait.guarded (t : Trait) (body : Run α) : Run α := fun w =>
  if t.layer.maxDepth ≤ w.nesting.current then
    (.error (.fault (.dispatch (.recursionLimit t.name t.layer.maxDepth))), w)
  else
    let (result, w) := body.inSegment {w with nesting := w.nesting.enter}
    (result, {w with nesting := w.nesting.leave})

/-- Call a trait: through its memo table if it has one, else straight to a case. -/
def Trait.call (perform : Performer) (t : Trait) (args : List Value) : Run Value :=
  match args with
  | [] => Run.fail (.dispatch (.missingReceiver t.name))
  | receiver :: _ =>
    t.guarded <|
      match t.layer.memo? with
      | some memo => memo.call perform t receiver args
      | none => t.dispatch perform receiver args

/-! ### Requests -/

/-- Answers requests with the help of a performer for what the bodies request, and of
a way to call traits. -/
def answering (call : Performer → Trait → List Value → Run Value) (inner : Performer) :
    Performer := fun frame request =>
  match request with
  | .call id args => do
    match (← get).traits[id]? with
    | some t => call inner t args
    | none => pure .null
  | .recur args =>
    match frame with
    | some f => call inner f.invoked args
    | none => Run.fail (.program .noDispatch)
  | .base args =>
    match frame with
    | some f =>
      match f.owner.base? with
      | some base => call inner base args
      | none => Run.fail (.dispatch (.noBase f.owner.name))
    | none => Run.fail (.program .noDispatch)
  | .force id => do
    match (← get).heap.object? id with
    | some (.lazy body) => body.program.run inner none
    | _ => pure .null
  | .apply id args => do
    match (← get).heap.object? id with
    | some (.function _ body) => (body.asFunction args).run inner none
    | _ => pure .null
  | .read id index => readAt inner id index
  | .unify p v => return .bool (← unify inner p v)
  | .construct v args => v.construct args

/-- The performer that allows for a number of nested bodies. -/
def perform : Nat → Performer
  | 0 => fun _ _ => throw .exhausted
  | n + 1 => answering Trait.call (perform n)

/-- Far more nested bodies than any machine has room for. -/
def nestingBound : Nat := 1000000000

/-- The performer without a bound that anyone meets. -/
def performAll : Performer := perform nestingBound

/-- A program outside of any call. -/
def Program.exec (p : Program α) : Run α := p.run performAll none

end OpenVariants

import OpenVariants.Command
import OpenVariants.Composition
import OpenVariants.Config.Document
import OpenVariants.Scenario

/-! Sessions: commands on a world, one after the other.

A command looks its names up, evaluates its expressions in the order in which they
are written, and works on what it found. If it succeeds, the name it was given
stands for what it made; if not, all names stay as they were. After each command
only what the names keep alive is living. -/
namespace OpenVariants

/-! ### Lookups and evaluation -/

/-- What a name stands for, in a role. -/
def lookUp (role name : String) (select : Binding → Option α) : Run α :=
  (Program.lookUp role name select).exec

namespace Binding

def registry? : Binding → Option RegistryId
  | registry id => some id
  | _ => none

def rules? : Binding → Option RulesId
  | rules id => some id
  | _ => none

def facade? : Binding → Option Facade
  | facade f => some f
  | _ => none

def view? : Binding → Option View
  | view v => some v
  | _ => none

def method? : Binding → Option Method
  | method m => some m
  | _ => none

def store? : Binding → Option StoreId
  | store id => some id
  | _ => none

def weak? : Binding → Option Value
  | weak v => some v
  | _ => none

end Binding

namespace Session

/-- An entry of a table. -/
def entry (table : Array α) (id : Nat) (role : String) : Run α :=
  match table[id]? with
  | some a => pure a
  | none => Run.fail (.program (.noEntry role s!"{id}"))

def registryNamed (name : String) : Run RegistryId := lookUp "registry" name Binding.registry?

def dataNamed (name : String) : Run Data := lookUp "data" name Binding.data?

def variantNamed (of : VariantName) : Run Variant := do
  Run.lift ((← dataNamed of.data).variant of.variant)

def traitNamed (name : String) : Run Trait := do
  let id ← lookUp "trait" name Binding.trait?
  entry (← get).traits id "trait"

def facadeNamed (name : String) : Run Facade := lookUp "facade" name Binding.facade?

def viewNamed (name : String) : Run View := lookUp "view" name Binding.view?

def storeNamed (name : String) : Run StoreId := lookUp "store" name Binding.store?

def knotNamed (name : String) : Run KnotId := lookUp "knot" name Binding.knot?

def optionally (name : Option String) (find : String → Run α) : Run (Option α) :=
  match name with
  | some name => do return some (← find name)
  | none => pure none

/-- The value of an expression outside of any body. -/
def evaluate (e : Expr) : Run Value := (e.meaning {}).exec

def evaluateAll (es : List Expr) : Run (List Value) := (meanings es {}).exec

def buildPattern (p : PatternExpr) : Run Pattern := (p.build {}).exec

/-! ### Replies -/

/-- A value as it is replied: unfolded, or its kind alone. -/
def shown (quiet : Bool) (v : Value) : Run Reply := do
  if quiet then pure (.kind v.kind) else return .value ((← get).heap.tree v)

/-- A value replied, and ready to be named. -/
def valued (quiet : Bool) (v : Value) : Run (Reply × Option Binding) := do
  return (← shown quiet v, some (.value v))

def itemCount? (w : World) (v : Value) : Option Nat :=
  match v, w.heap.content? v with
  | .list _, some (.items values) => some values.length
  | _, _ => none

def entryCount? (w : World) (v : Value) : Option Nat :=
  match v, w.heap.content? v with
  | .record _, some (.entries entries) => some entries.length
  | _, _ => none

def facts (w : World) (v : Value) : ValueFacts where
  kind := v.kind
  reference := v.isReference
  bool? := match v with
    | .bool b => some b
    | _ => none
  int? := match v with
    | .int i => some i
    | _ => none
  float? := v.float?
  text? := match v with
    | .text s => some s
    | _ => none
  items? := itemCount? w v
  entries? := entryCount? w v
  label? := match v with
    | .function _ label => label
    | _ => none
  variant? := (w.heap.instance? v).map (·.1.name)
  written := w.heap.written v

def liveInstances (w : World) (r : Registry) : Nat := r.canonical.count w.heap

def limitsText (c : Config) : String :=
  Text.labelled "Config"
    [("max_depth", toString c.maxDepth), ("purge_interval", toString c.purgeInterval)]

def registryInfo (w : World) (r : Registry) : RegistryInfo where
  config := r.config
  live := liveInstances w r
  text := Text.labelled "Registry"
    [("config", limitsText r.config), ("live_instances", toString (liveInstances w r))]

def variantInfo (v : Variant) : VariantInfo where
  name := v.name
  tag := v.tag.id
  owner := v.tag.owner
  arity := v.tag.arity
  singleton := v.singleton?.isSome

def dataInfo (d : Data) : DataInfo where
  id := d.id
  name := d.name
  base? := d.base?.map (·.name)
  variants := d.variants.map variantInfo
  text := d.text

def variantDetail (v : Variant) (field : Option String) : VariantDetail where
  tag := v.tag
  singleton := v.singleton?.isSome
  text := s!"Variant({v.tag.text})"
  index? := field.bind v.tag.fieldIndex?

def traitInfo (w : World) (t : Trait) : TraitInfo where
  name := t.name
  data? := t.layer.data?.map (·.name)
  base? := t.base?.map (·.name)
  cases := t.caseNames
  memoized := t.isMemoized
  memoCount := w.memoCount t
  text := t.text

def viewInfo (w : World) (v : View) : ViewInfo where
  name := ((w.heap.instance? v.value).map (·.1.name)).getD ""
  value := w.heap.tree v.value
  written := w.heap.written v.value
  text := s!"View({w.heap.written v.value})"

def methodText (w : World) (m : Method) : String := s!"{w.heap.written m.receiver}.{m.name}"

/-- A weak handle on an instance as it is written; other handles are not. -/
def weakText? (w : World) (v : Value) : Option String :=
  match v with
  | .inst _ => some (if w.heap.holds v then s!"(Weak {w.heap.written v})" else "(Weak dead)")
  | _ => none

def configInfo (document environment : Option String) : Option ConfigInfo := do
  let read ← match document with
    | some source => Config.ofDocument? source
    | none => some {}
  let config := read.withOverride environment
  let written := config.document
  some ⟨config, written, Config.ofDocument? written == some config⟩

def scenarioEnd (name : String) (config : Config) : ScenarioEnd :=
  match Scenario.find? name with
  | none => .unknown name
  | some s =>
    match s.start config with
    | (.ok v, w) => .value (w.heap.tree v)
    | (.error (.fault f), _) => .fault f
    | (.error .exhausted, _) => .exhausted

/-! ### Parts of commands -/

/-- Rules from their texts: all patterns first, then the check of the list. -/
def buildRules (texts : List RuleText) : Run Rules := do
  let rules ← texts.mapM fun text => do
    let patterns ← (buildItems text.patterns {}).exec
    pure (⟨patterns, text.body.asCase⟩ : Rule)
  Run.lift (Rules.ofList rules)

def buildCase : CaseText → Run Case
  | .handler body => pure (.handler body.asCase)
  | .rules texts => do return .rules (← buildRules texts)
  | .named name => do
    let id ← lookUp "rules" name Binding.rules?
    return .rules (← entry (← get).rules id "rules")

def buildCases (cases : List (String × CaseText)) : Run (List (String × Case)) :=
  cases.mapM fun (name, text) => do return (name, ← buildCase text)

def buildBottom : BottomText → Run Bottom
  | .value e => do return .value (← evaluate e)
  | .compute body => pure (.compute body.asFunction)

/-- A view replied, and ready to be named. -/
def viewed (v : View) : Run (Reply × Option Binding) := do
  return (.view (viewInfo (← get) v), some (.view v))

/-- The view of an instance just constructed. -/
def constructed (f : Facade) (v : Value) : Run (Reply × Option Binding) := do
  viewed (← Run.lift (f.view v (← get)))

/-- The view of a value that may be no instance of the declaration. -/
def wrapped (f : Facade) (v : Value) : Run (Reply × Option Binding) := do
  viewed (← Run.lift (f.wrap v (← get)))

/-- A client's path of keys. -/
def pathOf (keys : List Value) : Run (List Key) := Run.lift (Key.path keys)

/-! ### Commands -/

/-- A reply and nothing to name. -/
def only (r : Reply) : Run (Reply × Option Binding) := pure (r, none)

/-- Carry a command out: its reply, and what it made. -/
def execute (quiet : Bool) : Command → Run (Reply × Option Binding)
  | .eval e => do valued quiet (← evaluate e)
  | .drop name => do
    let w ← get
    set (w.unbind name)
    only (.flag (w.binding? name).isSome)
  | .inspect e => do
    let v ← evaluate e
    only (.facts (facts (← get) v))
  | .compare a b => do
    let x ← evaluate a
    let y ← evaluate b
    only (.comparison (x.same y) (y.same x) (Key.ofValue x = Key.ofValue y) (x.identical? y))
  | .weaken e => do
    let v ← evaluate e
    return (.flag ((← get).heap.holds v), some (.weak v))
  | .upgrade name => do
    let v ← lookUp "weak" name Binding.weak?
    let w ← get
    only (.upgraded (if w.heap.holds v then some (w.heap.tree v) else none) (weakText? w v))
  | .identify name => only (.shapes (Text.isCapitalized name) (Text.isCamelCase name))
  | .registry config => do
    let id ← Run.change (World.addRegistry config)
    return (.limits config, some (.registry id))
  | .registryInfo name => do
    let id ← registryNamed name
    let w ← get
    only (.registry (registryInfo w (← entry w.registries id "registry")))
  | .sameRegistry a b => do
    let x ← registryNamed a
    let y ← registryNamed b
    only (.flag (x == y))
  | .live name => do
    let id ← registryNamed name
    let w ← get
    only (.count (liveInstances w (← entry w.registries id "registry")))
  | .purge name => do
    let id ← registryNamed name
    let w ← get
    let r ← entry w.registries id "registry"
    set (w.sweep id)
    only (.count (r.canonical.released w.heap))
  | .declare registry name base variants => do
    let r ← registryNamed registry
    let base? ← optionally base dataNamed
    let d ← OpenVariants.declare r name base? variants
    return (.data (dataInfo d), some (.data d))
  | .data name => do only (.data (dataInfo (← dataNamed name)))
  | .variant of field => do only (.variant (variantDetail (← variantNamed of) field))
  | .singleton of => do valued quiet (← Run.lift (← variantNamed of).singleton)
  | .sameTag a b => do
    let x ← variantNamed a
    let y ← variantNamed b
    only (.flag (x.tag.same y.tag))
  | .sameData a b => do
    let x ← dataNamed a
    let y ← dataNamed b
    only (.flag (x.same y))
  | .contains data e => do
    let d ← dataNamed data
    let v ← evaluate e
    let w ← get
    only (.flag ((w.heap.instance? v).any fun (tag, _) => d.hasTag tag))
  | .containsTag data of => do
    let d ← dataNamed data
    let v ← variantNamed of
    only (.flag (d.hasTag v.tag))
  | .extends_ a b => do
    let x ← dataNamed a
    let y ← dataNamed b
    only (.flag (x.extendsFrom y))
  | .inst e => do
    let v ← evaluate e
    let (_, tag, values) ← (Program.expectInstance v).exec
    let w ← get
    only (.inst ⟨tag.name, values.length, w.heap.written v, w.heap.holds v, tag.numbered⟩)
  | .knot => do
    let id ← Run.change World.addKnot
    return (.flag false, some (.knot id))
  | .tie knot e => do
    let k ← knotNamed knot
    tie k (← evaluate e)
    only .nothing
  | .tied knot => do
    let k ← knotNamed knot
    only (.flag ((← get).knots[k]?.join).isSome)
  | .target knot => do
    let k ← knotNamed knot
    valued quiet (← Run.lift ((← get).knotTarget k))
  | .pattern p => do
    let p ← buildPattern p
    let w ← get
    return (.text (p.text w.heap.written), some (.pattern p))
  | .unify p e => do
    let p ← buildPattern p
    let v ← evaluate e
    only (.flag (← OpenVariants.unify performAll p v))
  | .rules texts => do
    let rules ← buildRules texts
    let w ← get
    let id ← Run.change (World.addRules rules)
    let info : RulesInfo := ⟨rules.rules.length, rules.arity, rules.text w.heap.written⟩
    return (.rules info, some (.rules id))
  | .trait registry name data base cases => do
    let r ← registryNamed registry
    let data? ← optionally data dataNamed
    let base? ← optionally base traitNamed
    let id ← defineTrait r name data? base? (← buildCases cases)
    let w ← get
    return (.trait (traitInfo w (← entry w.traits id "trait")), some (.trait id))
  | .traitInfo name => do
    let t ← traitNamed name
    only (.trait (traitInfo (← get) t))
  | .resolves trait variant => do only (.flag ((← traitNamed trait).resolves variant))
  | .sameTrait a b => do
    let x ← traitNamed a
    let y ← traitNamed b
    only (.flag (x.same y))
  | .hasBase a b => do
    let x ← traitNamed a
    let w ← get
    let id? := (w.binding? b).bind Binding.trait?
    only (.flag (x.base?.any fun base => id?.any (· == base.layer.id)))
  | .call trait args => do
    let t ← traitNamed trait
    let args ← evaluateAll args
    valued quiet (← callTrait t.layer.id args)
  | .memo registry trait bottom => do
    let _ ← registryNamed registry
    let bottom ← buildBottom bottom
    let id ← memoize (← traitNamed trait) bottom
    let w ← get
    return (.memo (traitInfo w (← entry w.traits id "trait")) (bottom.text w.heap.written),
      some (.trait id))
  | .memoCount trait => do
    let t ← traitNamed trait
    only (.count ((← get).memoCount t))
  | .purgeMemo trait => do
    let t ← traitNamed trait
    match t.layer.memo? with
    | none => only (.count 0)
    | some memo => purgeStore memo.store
  | .compose registry data traits => do
    let _ ← registryNamed registry
    let traits ← traits.mapM traitNamed
    let d ← dataNamed data
    let f ← Run.lift (Facade.compose d traits)
    return (.facade f.data.name f.traitNames f.text, some (.facade f))
  | .boundTrait facade name => do
    let f ← facadeNamed facade
    let w ← get
    match f.trait? name with
    | some id => only (.trait (traitInfo w (← entry w.traits id "trait")))
    | none => only .nothing
  | .boundVariant facade variant => do
    let f ← facadeNamed facade
    let v ← Run.lift (f.data.variant variant)
    only (.boundVariant v.name s!"Variant({v.tag.text})" s!"BoundVariant({v.tag.text})")
  | .viewNew facade variant args => do
    let f ← facadeNamed facade
    let v ← Run.lift (f.data.variant variant)
    let args ← evaluateAll args
    constructed f (← v.construct args)
  | .viewKeyed facade variant record => do
    let f ← facadeNamed facade
    let v ← Run.lift (f.data.variant variant)
    let record ← evaluate record
    constructed f (← (do Program.constructKeyed v (← Program.expectRecord record)).exec)
  | .viewApply facade variant args => do
    let f ← facadeNamed facade
    let v ← Run.lift (f.data.variant variant)
    let args ← evaluateAll args
    constructed f (← (Program.constructApply v args).exec)
  | .viewUnit facade variant => do
    let f ← facadeNamed facade
    viewed (← Run.lift (f.unit variant))
  | .viewWrap facade e => do
    let f ← facadeNamed facade
    wrapped f (← evaluate e)
  | .viewValue view => do valued quiet (← viewNamed view).value
  | .viewField view name => do
    let v ← viewNamed view
    valued quiet (← (Program.readField v.value name).exec)
  | .viewCall view name args => do
    let v ← viewNamed view
    let args ← evaluateAll args
    valued quiet (← v.call performAll name args)
  | .viewMember view name => do
    let v ← viewNamed view
    match ← v.member performAll name with
    | .field v => only (.field ((← get).heap.tree v))
    | .method m => only (.method m.name (methodText (← get) m))
  | .viewMethod view name => do
    let v ← viewNamed view
    let m ← v.method performAll name
    return (.text (methodText (← get) m), some (.method m))
  | .viewAssign view name e => do
    let _ ← viewNamed view
    let _ ← evaluate e
    Run.fail (.composition (.readOnly name))
  | .viewRemove view name => do
    let _ ← viewNamed view
    Run.fail (.composition (.readOnly name))
  | .sameView a b => do
    let x ← viewNamed a
    let y ← viewNamed b
    only (.flag (x.inst == y.inst))
  | .viewFacade view => do only (.text (← viewNamed view).facade.text)
  | .callMethod method args => do
    let m ← lookUp "method" method Binding.method?
    let args ← evaluateAll args
    valued quiet (← m.call performAll args)
  | .store retention => do
    let retention := retention.getD .weak
    let id ← Run.change (World.addStore retention)
    return (.text retention.text, some (.store id))
  | .storeGet store keys => do
    let id ← storeNamed store
    let path ← pathOf (← evaluateAll keys)
    match (← get).stored? id path with
    | some v => return (.found (some (← shown quiet v)), some (.value v))
    | none => only (.found none)
  | .storeHas store keys => do
    let id ← storeNamed store
    let path ← pathOf (← evaluateAll keys)
    let w ← get
    only (.flag ((← entry w.stores id "store").has w.heap path))
  | .storeSet store keys e => do
    let id ← storeNamed store
    let keys ← evaluateAll keys
    let v ← evaluate e
    let path ← pathOf keys
    modify (World.storeSet id path v)
    only .nothing
  | .storeErase store keys => do
    let id ← storeNamed store
    let path ← pathOf (← evaluateAll keys)
    let w ← get
    let (removed, store) := (← entry w.stores id "store").delete w.heap path
    set (w.updateStore id fun _ _ => store)
    only (.flag removed)
  | .storeIntern store keys e => do
    let id ← storeNamed store
    let keys ← evaluateAll keys
    let v ← evaluate e
    let path ← pathOf keys
    let w ← get
    let (found, store) := (← entry w.stores id "store").intern w.heap path v
    match found with
    | some v => return (.interned false (← shown quiet v), some (.value v))
    | none =>
      set (w.updateStore id fun _ _ => store)
      return (.interned true (← shown quiet v), some (.value v))
  | .storePurge store => do purgeStore (← storeNamed store)
  | .storeCount store => do
    let id ← storeNamed store
    let w ← get
    only (.size ((← entry w.stores id "store").count w.heap))
  | .storeClear store => do
    let id ← storeNamed store
    modify (World.updateStore id fun _ => Store.cleared)
    only .nothing
  | .config document environment => only (.config (configInfo document environment))
  | .scenarios => only (.scenarios (Scenario.all.map fun s => (s.name, s.description)))
  | .scenario name config => only (.scenario (scenarioEnd name config))
where
  /-- Purge a store, with the number of values released. -/
  purgeStore (id : StoreId) : Run (Reply × Option Binding) := do
    let w ← get
    let released := ((w.stores[id]?).map (·.released w.heap)).getD 0
    set (w.updateStore id Store.purged)
    only (.count released)

/-! ### Steps -/

/-- What a step shows: how it ended, and the lines it logged. -/
structure StepResult where
  outcome : Except Stop Reply
  log : List String

/-- One command. On success its name stands for what it made. In the end only what
the names keep alive is living. -/
def step (s : Step) (w : World) : StepResult × World :=
  match execute s.quiet s.command {w with log := []} with
  | (.ok (reply, made), w) =>
    let w := match s.as?, made with
      | some name, some b => w.bind name b
      | _, _ => w
    (⟨.ok reply, w.log.reverse⟩, w.settled)
  | (.error stop, w) => (⟨.error stop, w.log.reverse⟩, w.settled)

/-- The name of the registry that is there from the start. -/
def firstRegistry : String := "R"

/-- A world with one registry and its name. -/
def start (config : Config) : World :=
  let (id, w) := World.addRegistry config {}
  w.bind firstRegistry (.registry id)

/-- Commands in order, each on the world that the ones before left. -/
def runFrom : List Step → World → List StepResult
  | [], _ => []
  | s :: rest, w =>
    let (result, w) := step s w
    result :: runFrom rest w

/-- A session from the start. -/
def run (config : Config) (steps : List Step) : List StepResult :=
  runFrom steps (start config)

end Session

end OpenVariants

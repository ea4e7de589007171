import OpenVariants.Config
import OpenVariants.Store
import OpenVariants.Tree

/-! What a client can ask of a session, and what it hears.

A command names what it works on; a reply is what can be seen of the result, with
values unfolded. -/
namespace OpenVariants

/-! ### Commands -/

/-- A variant of the data that a name stands for. -/
structure VariantName where
  data : String
  variant : String
  deriving DecidableEq, Repr

/-- A rule as text: patterns, and the body for when they match. -/
structure RuleText where
  patterns : List PatternExpr
  body : Expr

/-- The body of a case as text. -/
inductive CaseText where
  | handler (body : Expr)
  | rules (rules : List RuleText)
  /-- The rules that a name stands for. -/
  | named (rules : String)

/-- A bottom as text. -/
inductive BottomText where
  | value (e : Expr)
  | compute (body : Expr)

inductive Command where
  -- Values
  | eval (value : Expr)
  | drop (name : String)
  | inspect (value : Expr)
  | compare (a b : Expr)
  | weaken (value : Expr)
  | upgrade (weak : String)
  | identify (name : String)
  -- Registries
  | registry (config : Config)
  | registryInfo (registry : String)
  | sameRegistry (a b : String)
  | live (registry : String)
  | purge (registry : String)
  -- Declarations
  | declare (registry name : String) (base : Option String) (variants : List VariantSpec)
  | data (name : String)
  | variant (of : VariantName) (field : Option String)
  | singleton (of : VariantName)
  | sameTag (a b : VariantName)
  | sameData (a b : String)
  | contains (data : String) (value : Expr)
  | containsTag (data : String) (of : VariantName)
  | extends_ (a b : String)
  | inst (value : Expr)
  -- Knots
  | knot
  | tie (knot : String) (value : Expr)
  | tied (knot : String)
  | target (knot : String)
  -- Patterns
  | pattern (p : PatternExpr)
  | unify (p : PatternExpr) (value : Expr)
  | rules (rules : List RuleText)
  -- Traits
  | trait (registry name : String) (data base : Option String) (cases : List (String × CaseText))
  | traitInfo (trait : String)
  | resolves (trait variant : String)
  | sameTrait (a b : String)
  | hasBase (a b : String)
  | call (trait : String) (args : List Expr)
  | memo (registry trait : String) (bottom : BottomText)
  | memoCount (trait : String)
  | purgeMemo (trait : String)
  -- Facades and views
  | compose (registry data : String) (traits : List String)
  | boundTrait (facade name : String)
  | boundVariant (facade variant : String)
  | viewNew (facade variant : String) (args : List Expr)
  | viewKeyed (facade variant : String) (record : Expr)
  | viewApply (facade variant : String) (args : List Expr)
  | viewUnit (facade variant : String)
  | viewWrap (facade : String) (value : Expr)
  | viewValue (view : String)
  | viewField (view name : String)
  | viewCall (view name : String) (args : List Expr)
  | viewMember (view name : String)
  | viewMethod (view name : String)
  | viewAssign (view name : String) (value : Expr)
  | viewRemove (view name : String)
  | sameView (a b : String)
  | viewFacade (view : String)
  | callMethod (method : String) (args : List Expr)
  -- Stores
  | store (retention : Option Retention)
  | storeGet (store : String) (keys : List Expr)
  | storeHas (store : String) (keys : List Expr)
  | storeSet (store : String) (keys : List Expr) (value : Expr)
  | storeErase (store : String) (keys : List Expr)
  | storeIntern (store : String) (keys : List Expr) (value : Expr)
  | storePurge (store : String)
  | storeCount (store : String)
  | storeClear (store : String)
  -- Configuration and scenarios
  | config (document environment : Option String)
  | scenarios
  | scenario (name : String) (config : Config)

/-- A command, the name for what it makes, and whether only the kind of a value is
wanted. -/
structure Step where
  command : Command
  as? : Option String := none
  quiet : Bool := false

/-! ### Replies -/

/-- All that a value shows to queries. -/
structure ValueFacts where
  kind : Kind
  reference : Bool
  bool? : Option Bool
  int? : Option Int64
  float? : Option Number.Double
  text? : Option String
  items? : Option Nat
  entries? : Option Nat
  label? : Option String
  variant? : Option String
  written : String

structure RegistryInfo where
  config : Config
  live : Nat
  text : String

structure VariantInfo where
  name : String
  tag : UInt32
  owner : UInt32
  arity : Nat
  singleton : Bool

structure DataInfo where
  id : UInt32
  name : String
  base? : Option String
  variants : List VariantInfo
  text : String

/-- A variant with the position of the field that was asked for. -/
structure VariantDetail where
  tag : Tag
  singleton : Bool
  text : String
  index? : Option Nat

structure InstanceInfo where
  name : String
  arity : Nat
  written : String
  alive : Bool
  tag : String

structure RulesInfo where
  count : Nat
  arity : Nat
  text : String

structure TraitInfo where
  name : String
  data? : Option String
  base? : Option String
  cases : List String
  memoized : Bool
  memoCount : Nat
  text : String

structure ViewInfo where
  name : String
  value : Tree
  written : String
  text : String

/-- A configuration after reading and overriding, how it is written, and whether
that reads back to the same. -/
structure ConfigInfo where
  config : Config
  document : String
  readsBack : Bool

/-- How a scenario ends. -/
inductive ScenarioEnd where
  | value (t : Tree)
  | fault (f : Fault)
  /-- The nesting went beyond all bounds. -/
  | exhausted
  /-- There is no scenario of that name. -/
  | unknown (name : String)

inductive Reply where
  | nothing
  | flag (b : Bool)
  | count (n : Nat)
  | text (s : String)
  | value (t : Tree)
  | kind (k : Kind)
  /-- What a store has, if it has anything. -/
  | found (r : Option Reply)
  | shapes (capitalized camelCase : Bool)
  | facts (f : ValueFacts)
  /-- Equality both ways, equality of keys, and identity where it is asked. -/
  | comparison (same flipped keys : Bool) (identical? : Option Bool)
  | upgraded (value? : Option Tree) (text? : Option String)
  | limits (c : Config)
  | registry (info : RegistryInfo)
  | data (info : DataInfo)
  | variant (detail : VariantDetail)
  | inst (info : InstanceInfo)
  | rules (info : RulesInfo)
  | trait (info : TraitInfo)
  | memo (info : TraitInfo) (bottom : String)
  | facade (data : String) (traits : List String) (text : String)
  | boundVariant (name variant text : String)
  | view (info : ViewInfo)
  | field (t : Tree)
  | method (name text : String)
  /-- Whether the value had to be made, and the value. -/
  | interned (made : Bool) (r : Reply)
  /-- The number of living values. -/
  | size (n : Nat)
  | config (info : Option ConfigInfo)
  | scenarios (all : List (String × String))
  | scenario (e : ScenarioEnd)

end OpenVariants

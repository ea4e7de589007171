import OpenVariants.Program

/-! Traits: operations dispatched by variant.

A trait is a chain of layers. Its own layer comes first, then those of the traits
it overrides, outward. Each layer has cases by variant name, and perhaps a wildcard
for the variants without one. A call takes the first case of the receiver's name
along the whole chain; only if there is none does it take the nearest wildcard.

A trait defined for a declaration is checked: its cases name variants of the
declaration, and every variant finds a case or a wildcard in the chain. -/
namespace OpenVariants

/-- The case name of the variants without a case of their own. -/
def wildcard : String := "_"

/-! ### Rules -/

/-- Patterns for the leading arguments, and what to do when all of them match. -/
structure Rule where
  patterns : List Pattern
  handler : Handler

/-- An ordered list of rules; the first that matches runs. -/
structure Rules where
  rules : List Rule

namespace Rules

/-- The number of patterns of each rule. -/
def arity (r : Rules) : Nat := (r.rules.head?.map (·.patterns.length)).getD 0

/-- Every rule has as many patterns as expected, and at least one. -/
def checkArities (expected : Nat) : (index : Nat) → List Rule → Except Fault Unit
  | _, [] => .ok ()
  | index, rule :: rest =>
    let found := rule.patterns.length
    if found = 0 then .error (.declaration (.emptyRule index))
    else if found ≠ expected then .error (.declaration (.arityMismatch index expected found))
    else checkArities expected (index + 1) rest

/-- A rule list of at least one rule, all of one arity. -/
def ofList (rules : List Rule) : Except Fault Rules :=
  match rules with
  | [] => .error (.declaration .emptyRules)
  | first :: _ =>
    match checkArities first.patterns.length 0 rules with
    | .error fault => .error fault
    | .ok _ => .ok ⟨rules⟩

def text (write : Value → String) (r : Rules) : String :=
  Text.enclosed "[" "]" (r.rules.map fun rule =>
    Text.enclosed "[" "]" (Pattern.texts write rule.patterns))

def heldValues (r : Rules) : List Value :=
  r.rules.flatMap fun rule => Pattern.itemsHeld rule.patterns

end Rules

/-! ### Cases and layers -/

inductive Case where
  | handler (body : Handler)
  | rules (list : Rules)

def Case.heldValues : Case → List Value
  | .handler _ => []
  | .rules list => list.heldValues

/-- What a memoized call sees while its own result is being computed. -/
inductive Bottom where
  | value (v : Value)
  /-- Computed from the arguments, once a miss. -/
  | compute (body : Handler)

namespace Bottom

def text (write : Value → String) : Bottom → String
  | .value v => s!"Bottom({write v})"
  | .compute _ => "Bottom(<fn>)"

def heldValues : Bottom → List Value
  | .value v => [v]
  | .compute _ => []

end Bottom

/-- The table of results of a memoized trait, and its bottom. -/
structure Memo where
  store : StoreId
  bottom : Bottom

/-- One link of a chain: what a single definition adds. -/
structure Layer where
  id : TraitId
  name : String
  /-- The declaration that the layer was checked against. -/
  data? : Option Data
  cases : List (String × Case)
  memo? : Option Memo
  /-- How many calls may be active when the trait is called. -/
  maxDepth : Nat

namespace Layer

def case? (l : Layer) (name : String) : Option Case := l.cases.lookup name

def hasCase (l : Layer) (name : String) : Bool := (l.case? name).isSome

def heldValues (l : Layer) : List Value :=
  (l.data?.map Data.singletons).getD []
    ++ l.cases.flatMap (·.2.heldValues)
    ++ (l.memo?.map (·.bottom.heldValues)).getD []

end Layer

/-- A chain of layers: the trait's own and those of its bases, nearest first. -/
structure Trait where
  layer : Layer
  bases : List Layer

/-- The case that a call runs, the trait that has it, and the name it has there. -/
structure Resolution where
  owner : Trait
  name : String
  case : Case

namespace Trait

def name (t : Trait) : String := t.layer.name

def same (a b : Trait) : Bool := a.layer.id == b.layer.id

def isMemoized (t : Trait) : Bool := t.layer.memo?.isSome

def caseNames (t : Trait) : List String := t.layer.cases.map (·.1)

/-- The layers in the order in which a call looks at them. -/
def chain (t : Trait) : List Layer := t.layer :: t.bases

/-- The trait that this one overrides. -/
def base? (t : Trait) : Option Trait :=
  match t.bases with
  | [] => none
  | layer :: bases => some ⟨layer, bases⟩

/-! ### Resolution -/

/-- A case of the trait's own layer. -/
def own? (t : Trait) (name : String) : Option Resolution :=
  (t.layer.case? name).map (⟨t, name, ·⟩)

/-- Walk outward with the nearest wildcard seen so far. -/
def resolveAlong (tag : String) (pending : Option Resolution) (layer : Layer) :
    List Layer → Option Resolution
  | [] => (own? ⟨layer, []⟩ tag).or (pending.or (own? ⟨layer, []⟩ wildcard))
  | next :: rest =>
    let here : Trait := ⟨layer, next :: rest⟩
    match here.own? tag with
    | some found => some found
    | none => resolveAlong tag (pending.or (here.own? wildcard)) next rest

/-- The case for a variant name: an exact one anywhere in the chain, else the
nearest wildcard. -/
def resolve? (t : Trait) (tag : String) : Option Resolution :=
  resolveAlong tag none t.layer t.bases

/-- Whether a call on a variant finds a case. -/
def resolves (t : Trait) (variant : String) : Bool :=
  t.chain.any fun layer => layer.hasCase variant || layer.hasCase wildcard

/-! ### Definition -/

/-- Case names have their shape, name variants of the declaration if there is one,
and differ from one another. -/
def checkCases (trait : String) (data? : Option Data) :
    (seen names : List String) → Except Fault Unit
  | _, [] => .ok ()
  | seen, name :: rest =>
    if !(name == wildcard || Text.isCapitalized name) then
      .error (.declaration (.invalidName .case name))
    else if !(name == wildcard) && data?.any (fun d => (d.variant? name).isNone) then
      .error (.declaration (.unknownVariant trait name))
    else if seen.contains name then .error (.declaration (.duplicateCase trait name))
    else checkCases trait data? (name :: seen) rest

/-- The first variant that a chain leaves without a case. -/
def uncovered? (t : Trait) (d : Data) : Option String :=
  d.variantNames.find? fun variant => !t.resolves variant

/-- A trait from its definition, if that is valid. -/
def define (id : TraitId) (name : String) (data? : Option Data) (base? : Option Trait)
    (cases : List (String × Case)) (maxDepth : Nat) : Except Fault Trait :=
  match checkCases name data? [] (cases.map (·.1)) with
  | .error fault => .error fault
  | .ok _ =>
    let t : Trait :=
      ⟨⟨id, name, data?, cases, none, maxDepth⟩, (base?.map Trait.chain).getD []⟩
    match data?.bind t.uncovered? with
    | some variant => .error (.declaration (.missingCase name variant))
    | none => .ok t

/-- A trait without cases of its own that calls another one through a memo table. -/
def memoized (t : Trait) (id : TraitId) (memo : Memo) : Trait :=
  ⟨{t.layer with id, cases := [], memo? := some memo}, t.chain⟩

def text (t : Trait) : String :=
  let base := match t.base? with
    | none => "None"
    | some b => s!"Some({Text.quoted b.name})"
  Text.labelled "Trait"
    [("name", Text.quoted t.name), ("cases", Text.quotedList t.caseNames), ("base", base),
      ("memoized", toString t.isMemoized)]

/-- The values that a trait holds, its memo tables left aside. -/
def heldValues (t : Trait) : List Value := t.chain.flatMap Layer.heldValues

/-- The memo tables that a trait holds. -/
def heldStores (t : Trait) : List StoreId := t.chain.filterMap fun l => l.memo?.map (·.store)

end Trait

/-- A call in progress: the trait that was called and the one whose case runs. -/
structure Frame where
  invoked : Trait
  owner : Trait

def Frame.info (f : Frame) : FrameInfo where
  invoked := f.invoked.name
  memoized := f.invoked.isMemoized
  owner := f.owner.name
  base? := f.owner.base?.map Trait.name
  own := f.invoked.same f.owner

end OpenVariants

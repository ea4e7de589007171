import OpenVariants.Kind

/-! What can go wrong, by cause.

Each family belongs to one activity: declaring data and traits, constructing
instances, dispatching calls, composing facades, using stores, and running
programs. A fault carries what its message needs and no wording; the wording is
`Fault.message`. Nothing in the library recovers from a fault: it reaches the
caller unchanged, but for a field read that tells a fault without a site where
it arose (`Fault.located`). -/
namespace OpenVariants

/-! ### Declarations -/

/-- What a rejected name was to name. -/
inductive NameRole where
  | variant | field | case
  deriving DecidableEq, Repr

def NameRole.name : NameRole → String
  | .variant => "variant"
  | .field => "field"
  | .case => "case"

/-- The shape that the role asks for. -/
def NameRole.shape : NameRole → String
  | .variant => "a capitalized identifier"
  | .field => "a camelCase identifier"
  | .case => "a capitalized variant name or `_`"

/-- A malformed declaration of data, rules or a trait. -/
inductive DeclarationFault where
  | invalidName (role : NameRole) (name : String)
  | duplicateVariant (variant : String)
  | duplicateField (variant field : String)
  | missingCase (trait variant : String)
  | unknownVariant (trait variant : String)
  | duplicateCase (trait case : String)
  | emptyRules
  | emptyRule (index : Nat)
  | arityMismatch (index expected found : Nat)
  | wrongFieldCount (variant : String) (expected found : Nat)
  deriving DecidableEq, Repr

def DeclarationFault.name : DeclarationFault → String
  | .invalidName .. => "InvalidName"
  | .duplicateVariant _ => "DuplicateVariant"
  | .duplicateField .. => "DuplicateField"
  | .missingCase .. => "MissingCase"
  | .unknownVariant .. => "UnknownVariant"
  | .duplicateCase .. => "DuplicateCase"
  | .emptyRules => "EmptyRules"
  | .emptyRule _ => "EmptyRule"
  | .arityMismatch .. => "ArityMismatch"
  | .wrongFieldCount .. => "WrongFieldCount"

def DeclarationFault.message : DeclarationFault → String
  | .invalidName role name => s!"Invalid {role.name} name `{name}`: expected {role.shape}"
  | .duplicateVariant variant => s!"Variant `{variant}` is already declared"
  | .duplicateField variant field => s!"Field `{field}` is declared twice in variant `{variant}`"
  | .missingCase owner variant =>
    s!"Trait `{owner}` has no case for variant `{variant}` and no wildcard"
  | .unknownVariant owner variant =>
    s!"Trait `{owner}` defines a case for unknown variant `{variant}`"
  | .duplicateCase owner case => s!"Trait `{owner}` defines case `{case}` twice"
  | .emptyRules => "Pattern-case list has no rules"
  | .emptyRule index => s!"Rule {index} has no patterns before its handler"
  | .arityMismatch index expected found =>
    s!"Rule {index} has {found} patterns, expected {expected}"
  | .wrongFieldCount variant expected found =>
    s!"Pattern for variant `{variant}` has {found} field patterns, expected {expected}"

/-! ### Constructions -/

/-- Why a knot has nothing to give. -/
inductive KnotTrouble where
  | untied | dropped
  deriving DecidableEq, Repr

def KnotTrouble.reason : KnotTrouble → String
  | .untied => "knot is not tied yet"
  | .dropped => "knot target was dropped"

/-- The field whose reading ran into a fault. -/
structure FieldSite where
  variant : String
  field : String
  deriving DecidableEq, Repr

/-- A wrong shape of arguments, or a field that has no value. -/
inductive ConstructionFault where
  | argumentCount (variant : String) (expected found : Nat)
  | missingField (variant field : String)
  | unknownField (variant field : String)
  | notASingleton (variant : String)
  | unknownVariant (variant : String)
  | unresolvedField (site : Option FieldSite) (trouble : KnotTrouble)
  | knotAlreadyTied
  deriving DecidableEq, Repr

def ConstructionFault.name : ConstructionFault → String
  | .argumentCount .. => "ArgumentCount"
  | .missingField .. => "MissingField"
  | .unknownField .. => "UnknownField"
  | .notASingleton _ => "NotASingleton"
  | .unknownVariant _ => "UnknownVariant"
  | .unresolvedField .. => "UnresolvedField"
  | .knotAlreadyTied => "KnotAlreadyTied"

def ConstructionFault.message : ConstructionFault → String
  | .argumentCount variant expected found =>
    s!"Variant `{variant}` takes {expected} arguments, got {found}"
  | .missingField variant field => s!"Variant `{variant}` is missing field `{field}`"
  | .unknownField variant field => s!"Variant `{variant}` has no field `{field}`"
  | .notASingleton variant => s!"Variant `{variant}` has fields and is not a singleton"
  | .unknownVariant variant => s!"Unknown variant `{variant}`"
  | .unresolvedField site trouble =>
    let site := site.getD ⟨"", ""⟩
    s!"Field `{site.field}` of `{site.variant}` cannot be resolved: {trouble.reason}"
  | .knotAlreadyTied => "Knot is already tied"

/-! ### Dispatch -/

/-- What a call was made on. -/
inductive Receiver where
  | tagged (variant : String)
  | untagged (kind : Kind)
  deriving DecidableEq, Repr

def Receiver.text : Receiver → String
  | .tagged variant => variant
  | .untagged kind => s!"untagged {kind.name}"

/-- A call that finds no case, or is nested too deep. -/
inductive DispatchFault where
  | noCase (trait : String) (receiver : Receiver)
  | noRule (trait case argument : String)
  | missingReceiver (trait : String)
  | noBase (trait : String)
  | recursionLimit (trait : String) (limit : Nat)
  deriving DecidableEq, Repr

def DispatchFault.name : DispatchFault → String
  | .noCase .. => "NoCase"
  | .noRule .. => "NoRule"
  | .missingReceiver _ => "MissingReceiver"
  | .noBase _ => "NoBase"
  | .recursionLimit .. => "RecursionLimit"

def DispatchFault.message : DispatchFault → String
  | .noCase called receiver => s!"Trait `{called}` has no case for `{receiver.text}`"
  | .noRule called case argument =>
    s!"Trait `{called}`: no rule of case `{case}` matches {argument}"
  | .missingReceiver called => s!"Trait `{called}` called without arguments"
  | .noBase called => s!"Trait `{called}` has no base trait"
  | .recursionLimit called limit => s!"Trait `{called}` exceeded the recursion limit of {limit}"

/-! ### Facades and views -/

/-- A clash of members, a member that is not there, or an attempt to change one. -/
inductive CompositionFault where
  | missingCase (trait variant : String)
  | unknownMember (variant member : String)
  | nameClash (trait variant : String)
  | duplicateMember (member : String)
  | readOnly (member : String)
  | foreignInstance (value : String)
  deriving DecidableEq, Repr

def CompositionFault.name : CompositionFault → String
  | .missingCase .. => "MissingCase"
  | .unknownMember .. => "UnknownMember"
  | .nameClash .. => "NameClash"
  | .duplicateMember _ => "DuplicateMember"
  | .readOnly _ => "ReadOnly"
  | .foreignInstance _ => "ForeignInstance"

def CompositionFault.message : CompositionFault → String
  | .missingCase bound variant => s!"Trait `{bound}` has no case for variant `{variant}`"
  | .unknownMember variant member => s!"`{variant}` has no member `{member}`"
  | .nameClash bound variant => s!"Trait `{bound}` clashes with a field of variant `{variant}`"
  | .duplicateMember member => s!"Member `{member}` is bound twice"
  | .readOnly member => s!"Cannot modify member `{member}`: views are read-only"
  | .foreignInstance value => s!"{value} is not an instance of this declaration"

/-! ### Programs -/

/-- What a primitive of the expression language wanted. -/
inductive Expectation where
  | integer | number | record | inst | function
  deriving DecidableEq, Repr

def Expectation.text : Expectation → String
  | .integer => "an integer"
  | .number => "a number"
  | .record => "a record"
  | .inst => "an instance"
  | .function => "a function"

/-- A failure of a program itself. -/
inductive ProgramFault where
  /-- The program says so. -/
  | raised (message : String)
  | noArgument (index : Nat)
  | noDispatch
  | noIteration
  | expected (what : Expectation) (found : String)
  | overflow
  /-- No entry of that role under the name. -/
  | noEntry (role name : String)
  deriving DecidableEq, Repr

def ProgramFault.message : ProgramFault → String
  | .raised message => message
  | .noArgument index => s!"no argument {index}"
  | .noDispatch => "no dispatch"
  | .noIteration => "no iteration"
  | .expected what found => s!"expected {what.text}, got {found}"
  | .overflow => "overflow"
  | .noEntry role name => s!"no {role} `{name}`"

/-! ### All faults -/

inductive Fault where
  | declaration (cause : DeclarationFault)
  | construction (cause : ConstructionFault)
  | dispatch (cause : DispatchFault)
  | composition (cause : CompositionFault)
  /-- A store used with an empty path of keys. -/
  | emptyKeyPath
  | program (cause : ProgramFault)
  deriving DecidableEq, Repr

/-- The family and the cause, as one word. -/
def Fault.name : Fault → String
  | .declaration cause => "Declaration." ++ cause.name
  | .construction cause => "Construction." ++ cause.name
  | .dispatch cause => "Dispatch." ++ cause.name
  | .composition cause => "Composition." ++ cause.name
  | .emptyKeyPath => "Store.EmptyKeyPath"
  | .program _ => "Handler"

def Fault.message : Fault → String
  | .declaration cause => cause.message
  | .construction cause => cause.message
  | .dispatch cause => cause.message
  | .composition cause => cause.message
  | .emptyKeyPath => "Key path must contain at least one key"
  | .program cause => cause.message

/-- A fault that does not say yet which field could not be resolved, told that it
is this one. Any other fault is as it was. -/
def Fault.located (site : FieldSite) : Fault → Fault
  | .construction (.unresolvedField none trouble) =>
    .construction (.unresolvedField (some site) trouble)
  | fault => fault

end OpenVariants

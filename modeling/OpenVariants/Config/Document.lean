import OpenVariants.Config
import OpenVariants.Document.Value

/-! Configurations as documents.

A document is a structure between parentheses, perhaps after its name: fields with
a colon and a value, separated by commas, of which the last may trail. Fields that
are not there take their defaults, unknown ones may hold any value of the notation,
and a known one stands once. -/
namespace OpenVariants.Config

open Document (Rest Extension)

/-- The fields read so far. -/
structure Fields where
  maxDepth : Option Nat := none
  purgeInterval : Option Nat := none

/-- How deep values may nest in a document, the structure and its field counted. -/
def nestingLimit : Nat := 128

/-- A limit: an integer of 64 bits without a sign. -/
def limitNumber? (rest : Rest) : Option (Nat × Rest) := do
  let (n, rest) ← Document.Numeral.read? rest
  some (← n.unsigned64?, rest)

/-- A field after its name and colon. -/
def field? (extensions : List Extension) (name : String) (done : Fields) (rest : Rest) :
    Option (Fields × Rest) :=
  if name == "max_depth" then
    if done.maxDepth.isSome then none
    else (limitNumber? rest).map fun (n, rest) => ({done with maxDepth := some n}, rest)
  else if name == "purge_interval" then
    if done.purgeInterval.isSome then none
    else (limitNumber? rest).map fun (n, rest) => ({done with purgeInterval := some n}, rest)
  else (Document.afterValue extensions (nestingLimit - 2) false rest).map (done, ·)

/-- Fields up to the closing parenthesis. -/
def fields? (extensions : List Extension) :
    (fuel : Nat) → (more : Bool) → Fields → Rest → Option (Fields × Rest)
  | 0, _, _, _ => none
  | fuel + 1, more, done, rest => do
    match ← Document.skipSpace rest with
    | [] => none
    | ')' :: rest => some (done, rest)
    | rest =>
      if more then
        let (name, rest) ← Document.name? rest
        let (done, rest) ← field? extensions name done (← Document.expect ':' rest)
        let (more, rest) ← Document.comma rest
        fields? extensions fuel more done rest
      else none

/-- The document after the name of the structure, which may have to be there. -/
def afterName (extensions : List Extension) (rest : Rest) : Option Rest :=
  if rest.head?.any Document.isNamePart then do
    let (name, rest) ← Document.name? rest
    if name == "Config" then Document.skipSpace rest else none
  else if extensions.contains .explicitStructNames then none
  else Document.skipSpace rest

/-- A configuration from a whole document. -/
def ofDocument? (source : String) : Option Config := do
  let rest ← Document.skipSpace source.toList
  let (extensions, rest) ← Document.attributes? (rest.length + 1) rest
  match ← afterName extensions rest with
  | '(' :: rest =>
    let (fields, rest) ← fields? extensions (rest.length + 1) true {} rest
    match ← Document.skipSpace rest with
    | [] =>
      let default : Config := {}
      let maxDepth := fields.maxDepth.getD default.maxDepth
      some ⟨maxDepth, fields.purgeInterval.getD default.purgeInterval⟩
    | _ :: _ => none
  | _ => none

/-- The document of a configuration, a field a line. -/
def document (c : Config) : String :=
  s!"(\n    max_depth: {c.maxDepth},\n    purge_interval: {c.purgeInterval},\n)"

end OpenVariants.Config

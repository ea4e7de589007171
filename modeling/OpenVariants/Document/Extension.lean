import OpenVariants.Document.Literal

/-! Attributes at the start of a document.

An attribute switches extensions of the notation on, or says of which type or by
which schema the document is. -/
namespace OpenVariants.Document

/-- An extension of the notation. -/
inductive Extension where
  | unwrapNewtypes
  /-- What may be absent may be given without `Some`. -/
  | implicitSome
  /-- What is in `Some` may be given without parentheses of its own. -/
  | unwrapVariantNewtypes
  /-- The name of a structure has to be given. -/
  | explicitStructNames
  deriving DecidableEq, Repr

namespace Extension

/-- The extensions by name. -/
def names : List (String × Extension) :=
  [("unwrap_newtypes", unwrapNewtypes), ("implicit_some", implicitSome),
    ("unwrap_variant_newtypes", unwrapVariantNewtypes),
    ("explicit_struct_names", explicitStructNames)]

/-- Names of extensions with commas between them. -/
def list? : (fuel : Nat) → Rest → Option (List Extension × Rest)
  | 0, _ => none
  | fuel + 1, rest => do
    let (name, rest) ← name? rest
    let e ← names.lookup name
    let (more, rest) ← comma rest
    if rest.head?.any isNamePart then
      if more then
        let (es, rest) ← list? fuel rest
        some (e :: es, rest)
      else none
    else some ([e], rest)

end Extension

/-- What an attribute switches on, after its opening bracket. -/
def attribute? (rest : Rest) : Option (List Extension × Rest) :=
  match after? "enable" rest with
  | some rest => do
    let rest ← expect '(' rest
    let (es, rest) ← Extension.list? (rest.length + 1) rest
    some (es, ← expect ')' rest)
  | none => do
    let rest ← afterOneOf? ["type", "schema"] rest
    some ([], ← afterText (← expect '=' rest))

/-- The extensions that the attributes at the start switch on. -/
def attributes? : (fuel : Nat) → Rest → Option (List Extension × Rest)
  | 0, _ => none
  | fuel + 1, rest =>
    match rest with
    | '#' :: rest => do
      let (es, rest) ← attribute? (← expect '[' (← expect '!' rest))
      let (more, rest) ← attributes? fuel (← expect ']' rest)
      some (es ++ more, rest)
    | rest => some ([], rest)

end OpenVariants.Document

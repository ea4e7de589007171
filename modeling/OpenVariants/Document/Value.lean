import OpenVariants.Document.Extension
import OpenVariants.Document.Number

/-! Values of any sort in documents, passed over.

Values nest only so deep. A reader of values is given the readers for values that
are nested one and two levels deeper, as far as there are any. -/
namespace OpenVariants.Document

/-- A reader of values. What is read may be the content of `Some` that stands there
without parentheses of its own. -/
abbrev Reader := (bare : Bool) → Skip

/-! ### The shape of bare content -/

/-- What stands between parentheses. -/
inductive Shape where
  | named
  | one
  | several
  deriving DecidableEq, Repr

/-- Whether more than one value stands before the closing bracket, seen after a comma. -/
def afterFirst (rest : Rest) : Option Shape := do
  match ← skipSpace rest with
  | ')' :: _ => some .one
  | _ => some .several

/-- Look for a comma before the bracket that closes, at a depth of brackets. -/
def countValues : (fuel depth : Nat) → Rest → Option Shape
  | 0, _, _ => none
  | fuel + 1, depth, rest => do
    let rest ← skipSpace rest
    let rest := (afterChar rest).getD rest
    let rest := (afterText rest).getD rest
    let rest := (afterByteText rest).getD rest
    match rest with
    | [] => none
    | c :: rest =>
      if ['(', '[', '\x7b'].contains c then countValues fuel (depth + 1) rest
      else if [')', ']', '\x7d'].contains c then
        if depth ≤ 1 then some .one else countValues fuel (depth - 1) rest
      else if c == ',' && depth == 1 then afterFirst rest
      else countValues fuel depth rest

/-- The shape of what stands between parentheses, from the first character on. -/
def shape? (rest : Rest) : Option Shape := do
  let rest ← skipSpace rest
  match someName? rest with
  | none => countValues (rest.length + 1) 1 rest
  | some (_, rest) =>
    match ← skipSpace rest with
    | ':' :: _ => some .named
    | ',' :: rest => afterFirst rest
    | ')' :: _ => some .one
    | rest => countValues (rest.length + 1) 1 rest

/-! ### Groups -/

/-- A key, a colon and a value. -/
def pair (key value : Skip) : Skip := fun rest => do
  value (← expect ':' (← key rest))

/-- Fields up to the closing parenthesis. -/
def afterFields (one two : Option Reader) (rest : Rest) : Option Rest := do
  let _ ← one
  let name : Skip := fun rest => (name? rest).map (·.2)
  let value : Skip := fun rest => do (← two) false rest
  elements (pair name value) ')' rest

/-- Values up to a closing character. -/
def afterItems (closing : Char) (one two : Option Reader) (rest : Rest) : Option Rest := do
  let _ ← one
  elements (fun rest => do (← two) false rest) closing rest

/-- Entries up to the closing brace. -/
def afterEntries (one two : Option Reader) (rest : Rest) : Option Rest := do
  let _ ← one
  let value : Skip := fun rest => do (← two) false rest
  elements (pair value value) '\x7d' rest

/-- Whether a field starts here. -/
def startsField (rest : Rest) : Bool :=
  match someName? rest with
  | some (_, rest) => (skipSpace rest).bind (·.head?) == some ':'
  | none => false

/-- Fields or values after an opening parenthesis, and the closing one. -/
def afterStructure (one two : Option Reader) (rest : Rest) : Option Rest := do
  let rest ← skipSpace rest
  let rest ← if startsField rest then afterFields one two rest else afterItems ')' one two rest
  after? ")" rest

/-- What comes after `Some`: a value between parentheses, or without them if that is
switched on. -/
def afterSome (extensions : List Extension) (one : Option Reader) (rest : Rest) :
    Option Rest := do
  match ← skipSpace rest with
  | '(' :: rest =>
    let rest ← skipSpace rest
    let rest ← (← one) (extensions.contains .unwrapVariantNewtypes) rest
    after? ")" (← comma rest).2
  | rest => if extensions.contains .implicitSome then (← one) false rest else none

/-! ### Values -/

/-- The document after a value with parentheses of its own, if it has any. -/
def afterPlain (extensions : List Extension) (one two : Option Reader) (rest : Rest) :
    Option Rest :=
  match (afterOneOf? ["true", "false", "None"] rest).or (after? "()" rest) with
  | some rest => some rest
  | none =>
    match afterWord? "Some" rest with
    | some rest => afterSome extensions one rest
    | none =>
      if startsNumber rest then afterNumbers rest
      else
        match name? rest with
        | some (_, rest) => do
          match ← skipSpace rest with
          | '(' :: rest => afterStructure one two rest
          | rest => some rest
        | none =>
          match rest with
          | '(' :: rest => afterStructure one two rest
          | '[' :: rest => do after? "]" (← afterItems ']' one two rest)
          | '\x7b' :: rest => do after? "\x7d" (← afterEntries one two rest)
          | '\'' :: _ => afterChar rest
          | 'b' :: _ => afterByteText rest
          | _ => afterText rest

/-- The document after a value. Bare content is nothing at all, fields, several
values, or one value. -/
def afterValueWith (extensions : List Extension) (one two : Option Reader) : Reader
  | false, rest => afterPlain extensions one two rest
  | true, rest =>
    if rest.head? == some ')' then some rest
    else do
      match ← shape? rest with
      | .named => afterFields one two rest
      | .several => afterItems ')' one two rest
      | .one => afterPlain extensions one two rest

/-- The document after one value with at most so much nesting. -/
def afterValue (extensions : List Extension) : (nesting : Nat) → Reader
  | 0, bare, rest => afterValueWith extensions none none bare rest
  | 1, bare, rest => afterValueWith extensions (some (afterValue extensions 0)) none bare rest
  | n + 2, bare, rest =>
    let one : Reader := afterValue extensions (n + 1)
    afterValueWith extensions (some one) (some (afterValue extensions n)) bare rest

end OpenVariants.Document

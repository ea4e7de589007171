import OpenVariants.Text.Identifier
import OpenVariants.Text.NamePart

/-! Documents, character by character.

Reading goes through the characters once. A reader takes the rest of a document and
gives what is left of it, or nothing when the document is malformed. Here are the
pieces that everything is made of: white space and comments, words, names, commas. -/
namespace OpenVariants.Document

/-- What is left of a document. -/
abbrev Rest := List Char

/-- A reader that passes over a part of a document. -/
abbrev Skip := Rest → Option Rest

/-! ### Characters -/

/-- White space between the parts of a document. -/
def isSpace (c : Char) : Bool :=
  [0x20, 0x09, 0x0a, 0x0d, 0x0b, 0x0c, 0x85, 0x200e, 0x200f, 0x2028, 0x2029].contains c.toNat

def isNamePart (c : Char) : Bool :=
  if c.toNat < 128 then Text.isLetterOrDigit c || c == '_' else Text.isNameContinue c

def isNameFirst (c : Char) : Bool :=
  if c.toNat < 128 then Text.isUpper c || Text.isLower c || c == '_' else Text.isNameStart c

/-- Raw names may hold some punctuation as well. -/
def isRawNamePart (c : Char) : Bool := isNamePart c || c == '.' || c == '+' || c == '-'

def hexDigit? (c : Char) : Option Nat :=
  if Text.isDigit c then some (c.toNat - '0'.toNat)
  else if 'a' ≤ c && c ≤ 'f' then some (c.toNat - 'a'.toNat + 10)
  else if 'A' ≤ c && c ≤ 'F' then some (c.toNat - 'A'.toNat + 10)
  else none

/-! ### Words -/

/-- The document after a text that it starts with. -/
def after? (start : String) (rest : Rest) : Option Rest :=
  if start.toList.isPrefixOf rest then some (rest.drop start.length) else none

def startsWith (start : String) (rest : Rest) : Bool := (after? start rest).isSome

/-- The document after a word, which ends where a name would. -/
def afterWord? (word : String) (rest : Rest) : Option Rest :=
  match after? word rest with
  | some rest => if rest.head?.any isNamePart then none else some rest
  | none => none

/-- The document after the first of some words that it starts with. -/
def afterOneOf? (words : List String) (rest : Rest) : Option Rest :=
  words.findSome? (afterWord? · rest)

/-! ### White space and comments -/

/-- The document after the block comment that it starts in, at a depth of nesting. -/
def afterBlock : (fuel depth : Nat) → Rest → Option Rest
  | 0, _, _ => none
  | _ + 1, 0, rest => some rest
  | fuel + 1, depth + 1, rest =>
    match rest with
    | [] => none
    | '/' :: '*' :: rest => afterBlock fuel (depth + 2) rest
    | '*' :: '/' :: rest => afterBlock fuel depth rest
    | _ :: rest => afterBlock fuel (depth + 1) rest

/-- The document after white space and comments. Comments run to the end of their
line, or nest between `/*` and `*/`. -/
def skipSpaceFor : (fuel : Nat) → Rest → Option Rest
  | 0, _ => none
  | fuel + 1, rest =>
    match rest.dropWhile isSpace with
    | '/' :: '/' :: rest => skipSpaceFor fuel (rest.dropWhile (· != '\n'))
    | '/' :: '*' :: rest =>
      match afterBlock (rest.length + 2) 1 rest with
      | some rest => skipSpaceFor fuel rest
      | none => none
    | '/' :: _ => none
    | rest => some rest

def skipSpace (rest : Rest) : Option Rest := skipSpaceFor (rest.length + 1) rest

/-- A character after white space, and the white space after it. -/
def expect (c : Char) (rest : Rest) : Option Rest := do
  match ← skipSpace rest with
  | d :: rest => if c = d then skipSpace rest else none
  | [] => none

/-- Whether a comma comes next, and the document after it. -/
def comma (rest : Rest) : Option (Bool × Rest) := do
  match ← skipSpace rest with
  | ',' :: rest => some (true, ← skipSpace rest)
  | rest => some (false, rest)

/-- Elements with commas between them, of which the last may trail, up to the
closing character; `more` is whether another one may come. -/
def separated (element : Skip) (closing : Char) : (fuel : Nat) → (more : Bool) → Skip
  | 0, _, _ => none
  | fuel + 1, more, rest => do
    match ← skipSpace rest with
    | [] => none
    | c :: rest =>
      if c = closing then some (c :: rest)
      else if more then
        let (more, rest) ← comma (← element (c :: rest))
        separated element closing fuel more rest
      else none

/-- All elements up to the closing character. -/
def elements (element : Skip) (closing : Char) (rest : Rest) : Option Rest :=
  separated element closing (rest.length + 1) true rest

/-! ### Names -/

/-- Whether a literal of text or bytes starts here, which no name does. -/
def startsLiteral (rest : Rest) : Bool :=
  ["r\"", "r#\"", "r##", "b\"", "b'", "br\"", "br#"].any (startsWith · rest)

/-- A name in its raw form, after the mark of that. -/
def rawName? (rest : Rest) : Option (String × Rest) :=
  let name := rest.takeWhile isRawNamePart
  if name.isEmpty then none else some (String.ofList name, rest.drop name.length)

/-- A name as far as it goes, whatever comes next. -/
def someName? (rest : Rest) : Option (String × Rest) :=
  if startsLiteral rest then none
  else
    match after? "r#" rest with
    | some raw => rawName? raw
    | none =>
      if rest.head?.any isNameFirst then
        let name := rest.takeWhile isNamePart
        some (String.ofList name, rest.drop name.length)
      else none

/-- A name, perhaps in its raw form. What only a raw name may hold does not come
right after another one. -/
def name? (rest : Rest) : Option (String × Rest) :=
  match someName? rest with
  | some (name, left) =>
    if !startsWith "r#" rest && left.head?.any isRawNamePart then none else some (name, left)
  | none => none

end OpenVariants.Document

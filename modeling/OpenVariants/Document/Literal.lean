import OpenVariants.Document.Scan

/-! Texts, bytes and characters in documents.

What they hold does not matter here, only where they end and whether their escapes
are good. -/
namespace OpenVariants.Document

/-- Where an escape stands. -/
inductive Place where
  /-- In a character. -/
  | char
  /-- In a single byte. -/
  | byte
  | text
  | bytes
  deriving DecidableEq, Repr

namespace Place

/-- Whether a line may go on after a backslash at its end. -/
def hasLines : Place → Bool
  | text | bytes => true
  | char | byte => false

end Place

/-! ### Escapes -/

/-- The byte of two hexadecimal digits. -/
def hexByte? (a b : Char) : Option UInt8 := do
  some (UInt8.ofNat ((← hexDigit? a) * 16 + (← hexDigit? b)))

/-- The document after the bytes of one character in UTF-8, some of which are known,
each written as an escape of its own. -/
def afterBytes : (most : Nat) → (known : ByteArray) → Skip
  | 0, _, _ => none
  | most + 1, known, rest =>
    if (String.fromUTF8? known).isSome then some rest
    else
      match rest with
      | '\\' :: 'x' :: a :: b :: rest => do afterBytes most (known.push (← hexByte? a b)) rest
      | _ => none

/-- Some hexadecimal digits up to a closing brace: their number and how many. -/
def hexRun : (most count value : Nat) → Rest → Option (Nat × Nat × Rest)
  | 0, count, value, rest => some (value, count, rest)
  | most + 1, count, value, rest =>
    match rest with
    | [] => none
    | '\x7d' :: _ => some (value, count, rest)
    | c :: rest => do hexRun most (count + 1) (value * 16 + (← hexDigit? c)) rest

/-- The document after the number of a character, up to and with its closing brace. -/
def afterCodePoint (rest : Rest) : Option Rest := do
  let (value, count, rest) ← hexRun 6 0 0 rest
  match rest with
  | '\x7d' :: rest => if count ≠ 0 && value.isValidChar then some rest else none
  | _ => none

/-- The document after an escape, without its backslash. -/
def afterEscape (place : Place) : Skip
  | 'x' :: a :: b :: rest => do
    let byte ← hexByte? a b
    match place with
    | .byte | .bytes => some rest
    | .char => if byte < 128 then some rest else none
    | .text => afterBytes 4 (ByteArray.empty.push byte) rest
  | 'u' :: '\x7b' :: rest => if place = .byte then none else afterCodePoint rest
  | '\n' :: rest => if place.hasLines then some rest else none
  | c :: rest => if ['\'', '"', '\\', 'n', 'r', 't', '0'].contains c then some rest else none
  | [] => none

/-! ### Literals -/

/-- The document after the quoted characters that it starts in. -/
def afterQuoted (place : Place) : (fuel : Nat) → Skip
  | 0, _ => none
  | fuel + 1, rest =>
    match rest with
    | [] => none
    | '"' :: rest => some rest
    | '\\' :: rest => do afterQuoted place fuel (← afterEscape place rest)
    | _ :: rest => afterQuoted place fuel rest

/-- The document after an ending that is in it. -/
def afterEnding (ending : List Char) : Skip
  | [] => none
  | c :: rest =>
    if ending.isPrefixOf (c :: rest) then some ((c :: rest).drop ending.length)
    else afterEnding ending rest

/-- The document after raw characters: hashes, a quote, and all up to a quote with
as many hashes. -/
def afterRaw (rest : Rest) : Option Rest :=
  let hashes := rest.takeWhile (· == '#')
  match rest.drop hashes.length with
  | '"' :: rest => afterEnding ('"' :: hashes) rest
  | _ => none

/-- The document after a text, raw or not. -/
def afterText : Skip
  | '"' :: rest => afterQuoted .text (rest.length + 1) rest
  | 'r' :: rest => afterRaw rest
  | _ => none

/-- The document after a string of bytes, raw or not. -/
def afterByteText : Skip
  | 'b' :: '"' :: rest => afterQuoted .bytes (rest.length + 1) rest
  | 'b' :: 'r' :: rest => afterRaw rest
  | _ => none

/-- The document after a character between single quotes. -/
def afterChar : Skip
  | '\'' :: '\\' :: rest => do after? "'" (← afterEscape .char rest)
  | '\'' :: _ :: rest => after? "'" rest
  | _ => none

/-- The document after a byte: a character of ASCII between single quotes after a `b`. -/
def afterByte : Skip
  | 'b' :: '\'' :: '\\' :: rest => do after? "'" (← afterEscape .byte rest)
  | 'b' :: '\'' :: c :: rest => if c.toNat < 128 then after? "'" rest else none
  | _ => none

end OpenVariants.Document

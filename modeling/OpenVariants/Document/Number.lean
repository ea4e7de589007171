import OpenVariants.Document.Literal

/-! Numbers and ranges in documents. -/
namespace OpenVariants.Document

/-! ### Integers -/

/-- A kind of integers: signed or not, and how many bits. -/
structure Width where
  signed : Bool
  bits : Nat
  deriving DecidableEq, Repr

namespace Width

def unsigned64 : Width := ⟨false, 64⟩

def signed64 : Width := ⟨true, 64⟩

/-- Whether an integer is of the kind. -/
def holds (w : Width) (i : Int) : Bool :=
  if w.signed then
    -Int.ofNat (Nat.pow 2 (w.bits - 1)) ≤ i && i < Int.ofNat (Nat.pow 2 (w.bits - 1))
  else 0 ≤ i && i < Int.ofNat (Nat.pow 2 w.bits)

/-- The suffixes that say of which kind an integer is. -/
def suffixes : List (String × Width) :=
  [("i8", ⟨true, 8⟩), ("i16", ⟨true, 16⟩), ("i32", ⟨true, 32⟩), ("i64", signed64),
    ("u8", ⟨false, 8⟩), ("u16", ⟨false, 16⟩), ("u32", ⟨false, 32⟩), ("u64", unsigned64)]

/-- The kind that a suffix says, and the document after it. -/
def suffix? (rest : Rest) : Option (Width × Rest) :=
  suffixes.findSome? fun (word, width) => (afterWord? word rest).map (width, ·)

end Width

/-- What the digits of an integer are taken from. -/
def isIntPart (c : Char) : Bool := (hexDigit? c).isSome || c == '_'

/-- The number of digits in a base; underscores between them do not count. -/
def digitsValue (base : Nat) : Nat → List Char → Option Nat
  | value, [] => some value
  | value, '_' :: rest => digitsValue base value rest
  | value, c :: rest => do
    let d ← hexDigit? c
    if d < base then digitsValue base (value * base + d) rest else none

/-- A number without a sign, in the base that its first characters tell. -/
def magnitude? (rest : Rest) : Option (Nat × Rest) :=
  let (base, rest) :=
    match rest with
    | '0' :: 'x' :: rest => (16, rest)
    | '0' :: 'b' :: rest => (2, rest)
    | '0' :: 'o' :: rest => (8, rest)
    | rest => (10, rest)
  let digits := rest.takeWhile isIntPart
  if digits.isEmpty || digits.head? == some '_' then none
  else (digitsValue base 0 digits).map (·, rest.drop digits.length)

/-- The document after a sign, and whether that is a minus. -/
def afterSign : Rest → Bool × Rest
  | '+' :: rest => (false, rest)
  | '-' :: rest => (true, rest)
  | rest => (false, rest)

/-- An integer as it is written: its value, and its kind if a suffix says that. -/
structure Numeral where
  value : Int
  width? : Option Width

namespace Numeral

def read? (rest : Rest) : Option (Numeral × Rest) := do
  let (negative, rest) := afterSign rest
  let (n, rest) ← magnitude? rest
  let value : Int := if negative then -Int.ofNat n else Int.ofNat n
  match Width.suffix? rest with
  | some (width, rest) => some (⟨value, some width⟩, rest)
  | none => some (⟨value, none⟩, rest)

/-- Whether the value is of its kind, or of any kind if there is no suffix. -/
def fits (n : Numeral) : Bool :=
  match n.width? with
  | some width => width.holds n.value
  | none => Width.signed64.holds n.value || Width.unsigned64.holds n.value

/-- The value as one of 64 bits without a sign; no other suffix may say otherwise. -/
def unsigned64? (n : Numeral) : Option Nat :=
  if n.width?.all (· == .unsigned64) && Width.unsigned64.holds n.value then some n.value.toNat
  else none

end Numeral

/-! ### Other numbers -/

/-- What a number with a fraction or an exponent is made of. -/
def isFloatPart (c : Char) : Bool :=
  Text.isDigit c || ['e', 'E', '.', '+', '-', '_'].contains c

/-- The characters of a number with a fraction or an exponent. Two points are not
part of it: they make a range. -/
def floatPart : Rest → List Char
  | '.' :: '.' :: _ => []
  | c :: rest => if isFloatPart c then c :: floatPart rest else []
  | [] => []

/-- Whether underscores stand only after a digit or an exponent mark. -/
def underscoresFit : (allowed : Bool) → List Char → Bool
  | _, [] => true
  | allowed, '_' :: rest => allowed && underscoresFit allowed rest
  | allowed, c :: rest =>
    let next := if c == '.' then false
      else if Text.isDigit c || c == 'e' || c == 'E' then true else allowed
    underscoresFit next rest

/-- Digits with a fraction, an exponent, or both. -/
def isFloatText (cs : List Char) : Bool :=
  let (_, cs) := afterSign cs
  let whole := cs.takeWhile Text.isDigit
  let rest := cs.drop whole.length
  let (fraction, rest) :=
    match rest with
    | '.' :: rest => (rest.takeWhile Text.isDigit, rest.dropWhile Text.isDigit)
    | rest => ([], rest)
  let exponentFits :=
    match rest with
    | [] => true
    | e :: rest =>
      let (_, rest) := afterSign rest
      (e == 'e' || e == 'E') && !rest.isEmpty && rest.all Text.isDigit
  !(whole.isEmpty && fraction.isEmpty) && exponentFits

/-- Numbers that are words. -/
def floatWords : List String := ["inf", "inff32", "inff64", "NaN", "NaNf32", "NaNf64"]

/-- The document after a number that is not an integer. -/
def afterFloat (rest : Rest) : Option Rest :=
  match afterOneOf? (floatWords.flatMap fun word => [word, "+" ++ word, "-" ++ word]) rest with
  | some rest => some rest
  | none =>
    let text := floatPart rest
    let left := rest.drop text.length
    if underscoresFit false text && isFloatText (text.filter (· != '_')) then
      some ((afterOneOf? ["f32", "f64"] left).getD left)
    else none

/-- The document after an integer that fits its kind. -/
def afterInteger (rest : Rest) : Option Rest :=
  if startsWith "b'" rest then afterByte rest
  else
    match Numeral.read? rest with
    | some (n, rest) => if n.fits then some rest else none
    | none => none

/-! ### Numbers of any sort -/

/-- Whether a number starts here. -/
def startsNumber (rest : Rest) : Bool :=
  startsWith "b'" rest || (afterOneOf? floatWords rest).isSome
    || rest.head?.any fun c => Text.isDigit c || c == '+' || c == '-' || c == '.'

/-- The document after a number. An integer that fits no kind is read as a number
that is not an integer. -/
def afterNumber (rest : Rest) : Option Rest :=
  let (_, unsigned) := afterSign rest
  if (unsigned.takeWhile isIntPart).length < (floatPart unsigned).length then afterFloat rest
  else (afterInteger rest).or (afterFloat rest)

/-- The document after the two points of a range and its end. There is an end if a
number comes right after the points, or an equals sign that includes it. -/
def afterRange (rest : Rest) : Option Rest := do
  match ← after? ".." rest with
  | '=' :: rest => afterNumber rest
  | rest => if startsNumber rest then afterNumber rest else some rest

/-- The document after a number or a range of numbers. -/
def afterNumbers (rest : Rest) : Option Rest := do
  if startsWith ".." rest then afterRange rest
  else
    let rest ← afterNumber rest
    if startsWith ".." rest then afterRange rest else some rest

end OpenVariants.Document

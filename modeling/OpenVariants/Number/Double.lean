import OpenVariants.Number.Shortest

/-! Double-precision numbers, kept as their 64 bits.

What the library decides about a double — whether it is a NaN or a zero, when two
are the same number, what key it boxes to and how it is written — is decided on
the bits. Only arithmetic goes through the machine's own `Float`. -/
namespace OpenVariants.Number

/-- A double-precision number by its bit pattern. -/
structure Double where
  bits : UInt64
  deriving DecidableEq, Repr, Inhabited

namespace Double

/-! ### Reading the pattern -/

def negative (d : Double) : Bool := d.bits >>> 63 == 1

/-- The pattern without its sign. -/
def magnitude (d : Double) : UInt64 := d.bits &&& 0x7fffffffffffffff

def exponentField (d : Double) : Nat := (d.magnitude >>> 52).toNat

def fraction (d : Double) : Nat := (d.bits &&& 0xfffffffffffff).toNat

def isNaN (d : Double) : Bool := d.magnitude > 0x7ff0000000000000

def isInfinite (d : Double) : Bool := d.magnitude == 0x7ff0000000000000

def isZero (d : Double) : Bool := d.magnitude == 0

/-- The one pattern by which every NaN is known. -/
def nan : Double := ⟨0x7ff8000000000000⟩

def zero : Double := ⟨0⟩

/-! ### Sameness -/

/-- Comparison of numbers: a NaN differs from everything and the two zeros agree. -/
def numericallyEqual (a b : Double) : Bool :=
  !a.isNaN && !b.isNaN && (a.bits == b.bits || (a.isZero && b.isZero))

/-- Equality of values: as numbers, except that all NaNs are the same. -/
def same (a b : Double) : Bool :=
  a.numericallyEqual b || (a.isNaN && b.isNaN)

/-- One pattern for all NaNs and one for both zeros. -/
def normalized (d : Double) : Double :=
  if d.isNaN then nan else if d.isZero then zero else d

/-! ### Arithmetic -/

def toFloat (d : Double) : Float := Float.ofBits d.bits

def ofFloat (x : Float) : Double := ⟨x.toBits⟩

/-- The nearest double to an integer. -/
def ofInt64 (i : Int64) : Double := ofFloat i.toFloat

def add (a b : Double) : Double := ofFloat (a.toFloat + b.toFloat)

def mul (a b : Double) : Double := ofFloat (a.toFloat * b.toFloat)

/-! ### Writing -/

/-- The reals that round to a finite double other than zero, its sign left aside.
An even significand wins its ties, so the ends belong to it; below a power of two
the gap is half as wide. -/
def rounding (d : Double) : Rounding :=
  let field := d.exponentField
  let significand := if field = 0 then d.fraction else d.fraction + Nat.pow 2 52
  let power : Int := if field = 0 then -1074 else (field : Int) - 1075
  let gap := if d.fraction = 0 && 1 < field then 1 else 2
  let low := 4 * significand - gap
  let high := 4 * significand + 2
  let closed := significand % 2 == 0
  if 2 ≤ power then
    let factor := Nat.pow 2 (power - 2).toNat
    ⟨low * factor, 4 * significand * factor, high * factor, 1, closed⟩
  else
    ⟨low, 4 * significand, high, Nat.pow 2 (2 - power).toNat, closed⟩

/-- The fewest digits that read back, in positional notation. -/
def text (d : Double) : String :=
  if d.isNaN then "NaN"
  else
    let sign := if d.negative then "-" else ""
    if d.isInfinite then sign ++ "inf"
    else if d.isZero then sign ++ "0"
    else sign ++ d.rounding.shortest.positional

end Double

end OpenVariants.Number

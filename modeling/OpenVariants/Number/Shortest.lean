/-! The shortest decimal that reads back.

A binary floating-point number stands for every real that rounds to it. Those
reals form an interval (`Rounding`), whose ends belong to it or not together.
The shortest decimal is a point of the coarsest decimal grid that meets the
interval. Only the two neighbours of the value on each grid need a test: when
any point of a grid lies in the interval, one of those two does.

Everything is exact: the interval's ends and the value are natural numbers over
one common denominator. -/
namespace OpenVariants.Number

/-- The reals `low / scale … high / scale` round to `value / scale`; the two ends
do so when `closed`. -/
structure Rounding where
  low : Nat
  value : Nat
  high : Nat
  scale : Nat
  closed : Bool
  deriving Repr

/-- The decimal `digits · 10 ^ exponent`. -/
structure Decimal where
  digits : Nat
  exponent : Int
  deriving DecidableEq, Repr

/-- The interval times a power of ten that makes the grid of step `10 ^ exponent`
the grid of the integers. -/
def Rounding.onGrid (r : Rounding) (exponent : Int) : Rounding :=
  if 0 ≤ exponent then
    {r with scale := r.scale * Nat.pow 10 exponent.toNat}
  else
    let power := Nat.pow 10 (-exponent).toNat
    {r with low := r.low * power, value := r.value * power, high := r.high * power}

/-- Whether the integer `k` rounds to the value. -/
def Rounding.holds (r : Rounding) (k : Nat) : Bool :=
  let point := k * r.scale
  if r.closed then r.low ≤ point && point ≤ r.high else r.low < point && point < r.high

/-- The neighbour of the value among the integers that rounds to it. Of two, the
nearer one; from the middle, the upper one. -/
def Rounding.nearest? (r : Rounding) : Option Nat :=
  let below := r.value / r.scale
  match r.holds below, r.holds (below + 1) with
  | true, true => some (if 2 * (r.value % r.scale) < r.scale then below else below + 1)
  | true, false => some below
  | false, true => some (below + 1)
  | false, false => none

/-- The place of the leading digit of a value of at least one: `0` below ten. -/
def leadingPlace : Nat → Nat → Nat
  | 0, _ => 0
  | fuel + 1, n => if n < 10 then 0 else leadingPlace fuel (n / 10) + 1

/-- How many times a value below one is multiplied by ten to reach one. -/
def leadingZeros (scale : Nat) : Nat → Nat → Nat
  | 0, _ => 0
  | fuel + 1, value => if scale ≤ value then 0 else leadingZeros scale fuel (value * 10) + 1

/-- The exponent of the leading digit: the greatest `e` with `10 ^ e ≤ value / scale`.
Both bounds exceed the exponents of any double. -/
def Rounding.leadingExponent (r : Rounding) : Int :=
  if r.scale ≤ r.value then leadingPlace 400 (r.value / r.scale)
  else -(leadingZeros r.scale 400 r.value : Int)

/-- The first hit on the grids of `count`, `count + 1`, … digits. -/
def Rounding.search (r : Rounding) (top : Int) : Nat → Nat → Option Decimal
  | 0, _ => none
  | fuel + 1, count =>
    let exponent := top - (count : Int)
    match (r.onGrid exponent).nearest? with
    | some digits => some ⟨digits, exponent⟩
    | none => r.search top fuel (count + 1)

/-- No final zero among the digits. -/
def Decimal.trimmed : Nat → Decimal → Decimal
  | 0, d => d
  | fuel + 1, d =>
    if d.digits % 10 = 0 && d.digits ≠ 0 then trimmed fuel ⟨d.digits / 10, d.exponent + 1⟩ else d

/-- The shortest decimal that rounds to the value; seventeen digits always suffice. -/
def Rounding.shortest (r : Rounding) : Decimal :=
  match r.search r.leadingExponent 17 0 with
  | some d => d.trimmed 20
  | none => ⟨0, 0⟩

/-- Positional notation: never an exponent, and a point only before a fraction. -/
def Decimal.positional (d : Decimal) : String :=
  let digits := Nat.toDigits 10 d.digits
  match d.exponent with
  | .ofNat zeros => String.ofList (digits ++ List.replicate zeros '0')
  | .negSucc n =>
    let places := n + 1
    let padded := List.replicate (places + 1 - digits.length) '0' ++ digits
    let whole := padded.length - places
    String.ofList (padded.take whole ++ '.' :: padded.drop whole)

end OpenVariants.Number

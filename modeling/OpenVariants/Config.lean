import OpenVariants.Text.Blank
import OpenVariants.Text.Identifier

/-! Limits of a registry. -/
namespace OpenVariants

structure Config where
  /-- How many calls of traits may be active when another one starts. -/
  maxDepth : Nat := 65536
  /-- How many fresh constructions lie between sweeps of the canonical store; none
  are made if it is zero. -/
  purgeInterval : Nat := 4096
  deriving DecidableEq, Repr, Inhabited

namespace Config

/-- Limits are numbers of 64 bits. -/
def bound : Nat := Nat.pow 2 64

/-- The variable of the environment that overrides `maxDepth`. -/
def depthVariable : String := "COMPLECT_MAX_DEPTH"

/-- A decimal number within the bound, perhaps with a plus sign. -/
def limit? (digits : List Char) : Option Nat :=
  let digits := match digits with
    | '+' :: rest => rest
    | digits => digits
  if digits.isEmpty || !digits.all Text.isDigit then none
  else
    let n := digits.foldl (fun n c => n * 10 + (c.toNat - '0'.toNat)) 0
    if n < bound then some n else none

/-- The text of a limit may stand between white space. -/
def trimmed (s : String) : List Char :=
  ((s.toList.dropWhile Text.isBlank).reverse.dropWhile Text.isBlank).reverse

/-- The depth from the environment, if it is set to a number. -/
def withOverride (c : Config) (maxDepth : Option String) : Config :=
  match maxDepth.bind (fun s => limit? (trimmed s)) with
  | some n => {c with maxDepth := n}
  | none => c

end Config

end OpenVariants

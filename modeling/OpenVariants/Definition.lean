import OpenVariants.Evaluation

/-! What is added to the world by definitions: registries, traits, memo tables,
rules, stores and knots. Each takes the next place of its table. -/
namespace OpenVariants

namespace World

def addRegistry (config : Config) (w : World) : RegistryId × World :=
  (w.registries.size, {w with registries := w.registries.push {config}})

def addTrait (t : Trait) (w : World) : TraitId × World :=
  (w.traits.size, {w with traits := w.traits.push t})

def addRules (r : Rules) (w : World) : RulesId × World :=
  (w.rules.size, {w with rules := w.rules.push r})

def addStore (retention : Retention) (w : World) : StoreId × World :=
  (w.stores.size, {w with stores := w.stores.push ⟨retention, .nil⟩})

def addKnot (w : World) : KnotId × World :=
  (w.knots.size, {w with knots := w.knots.push none})

end World

/-- The limits of a registry. -/
def registryConfig (r : RegistryId) (w : World) : Config :=
  ((w.registries[r]?).map (·.config)).getD {}

/-- Define a trait in a registry, perhaps for a declaration, perhaps overriding
another trait. -/
def defineTrait (r : RegistryId) (name : String) (data? : Option Data) (base? : Option Trait)
    (cases : List (String × Case)) : Run TraitId := do
  let w ← get
  let t ← Run.lift
    (Trait.define w.traits.size name data? base? cases (registryConfig r w).maxDepth)
  Run.change (World.addTrait t)

/-- Wrap a trait with a memo table of its own. -/
def memoize (t : Trait) (bottom : Bottom) : Run TraitId := do
  let store ← Run.change (World.addStore .strong)
  let w ← get
  Run.change (World.addTrait (t.memoized w.traits.size ⟨store, bottom⟩))

/-- Tie a knot, which can be done once. -/
def tie (k : KnotId) (v : Value) : Run Unit := do
  let w ← get
  match w.knots[k]? with
  | some none => set {w with knots := w.knots.setIfInBounds k (some v)}
  | _ => Run.fail (.construction .knotAlreadyTied)

/-- Call a trait from outside of any call. -/
def callTrait (id : TraitId) (args : List Value) : Run Value :=
  performAll none (.call id args)

/-- The living entries of the memo table of a trait. -/
def World.memoCount (w : World) (t : Trait) : Nat :=
  match t.layer.memo? with
  | some memo => ((w.stores[memo.store]?).map (·.count w.heap)).getD 0
  | none => 0

end OpenVariants

import Mathlib.Logic.Relation
import OpenVariants.Proofs.Form

/-! Programs that use the library, step by step.

Of what a program does only the steps that touch objects and registries matter: it
declares, constructs, makes other objects, sweeps a registry, lets go of values, or
does something that leaves objects and registries as they are. When it lets go of
what is its own affair: any objects may die that no living one refers to, except the
singletons of the data it holds. -/
namespace OpenVariants

/-- A program's world and the data it holds. -/
structure Client where
  world : World := {}
  data : List Data := []
  /-- The tags of all declarations so far, each with its registry. -/
  declared : List (RegistryId × Tag) := []

/-- The variants of a declaration that are not those of its base. -/
def Data.own (base? : Option Data) (d : Data) : List Variant :=
  d.variants.drop ((base?.map Data.variants).getD []).length

namespace Client

inductive Step : Client → Client → Prop
  | registry (c : Client) (config : Config) :
    Step c {c with world := (c.world.addRegistry config).2}
  | content (c : Client) (content : Content) (hplain : ∀ tag values, content ≠ .fields tag values)
    (hin : ∀ v ∈ content.children, c.world.heap.Proper v) :
    Step c {c with world := (c.world.newContent content).2}
  | function (c : Client) (label : Option String) (body : Expr) :
    Step c {c with world := (c.world.newFunction label body).2}
  | lazy (c : Client) (body : LazyBody) : Step c {c with world := (c.world.newLazy body).2}
  | declare (c : Client) (r : RegistryId) (name : String) (base? : Option Data)
    (specs : List VariantSpec) (d : Data) (w : World) (hr : r < c.world.registries.size)
    (hb : ∀ b, base? = some b → b ∈ c.data)
    (hrun : OpenVariants.declare r name base? specs c.world = (.ok d, w)) :
    Step c ⟨w, d :: c.data, c.declared ++ (d.own base?).map fun v => (r, v.tag)⟩
  | construct (c : Client) (d : Data) (v : Variant) (form : Form) (x : Value) (w : World)
    (hd : d ∈ c.data) (hv : v ∈ d.variants) (hin : ∀ a ∈ form.values, c.world.heap.Proper a)
    (hrun : form.run v c.world = (.ok x, w)) : Step c {c with world := w}
  | release (c : Client) (heap : Heap) (data : List Data) (hd : data ⊆ c.data)
    (hr : c.world.heap.Retains heap (data.flatMap Data.singletons)) :
    Step c {c with world := {c.world with heap}, data}
  | purge (c : Client) (r : RegistryId) : Step c {c with world := c.world.sweep r}
  /-- Names, tables, stores, knots, the log and the nesting of calls. -/
  | other (c : Client) (w : World) (hheap : w.heap = c.world.heap)
    (hregistries : w.registries = c.world.registries) (hserials : w.serials = c.world.serials) :
    Step c {c with world := w}

/-- Any number of steps. -/
abbrev Steps : Client → Client → Prop := Relation.ReflTransGen Step

/-- What a program can come to from nothing. -/
def Reachable (c : Client) : Prop := Steps {} c

/-- The number of variants declared in a registry so far. -/
def variantCount (c : Client) (r : RegistryId) : Nat :=
  (c.declared.filter fun p => p.1 == r).length

end Client

end OpenVariants

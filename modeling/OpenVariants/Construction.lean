import OpenVariants.Arguments
import OpenVariants.World

/-! Canonical construction.

Constructing a variant on fields that are the same as those of a living instance
gives that instance; otherwise a new one, which the canonical store of the registry
then knows, weakly, under the tag and the fields. After every `purgeInterval` fresh
constructions the registry sweeps its store. -/
namespace OpenVariants

/-! ### The canonical store -/

namespace World

/-- A registry changed; a number without a registry changes nothing. -/
def updateRegistry (r : RegistryId) (change : Registry → Registry) (w : World) : World :=
  {w with registries := w.registries.modify r change}

/-- The canonical store of a registry without what died. -/
def sweep (r : RegistryId) (w : World) : World :=
  let heap := w.heap
  w.updateRegistry r fun reg => {reg with canonical := reg.canonical.purged heap}

/-- A fresh construction is counted, and every `purgeInterval`-th one is followed by
a sweep; an interval of zero means none. -/
def countFresh (r : RegistryId) (w : World) : World :=
  match w.registries[r]? with
  | none => w
  | some reg =>
    let interval := reg.config.purgeInterval
    if interval = 0 then w
    else
      let count := reg.fresh + 1
      let w := w.updateRegistry r fun reg => {reg with fresh := count}
      if count.toNat % interval = 0 then w.sweep r else w

/-- The path of an instance in the canonical store. -/
def canonicalPath (tag : Tag) (fields : List Value) : List Key :=
  .tag tag.id :: fields.map Key.ofValue

/-- The instance for a tag and fields: the living one that the registry knows, or
else a fresh one. -/
def canonicalize (r : RegistryId) (tag : Tag) (fields : List Value) (w : World) : Value × World :=
  let fresh := Value.inst w.nextObject
  match w.registries[r]? with
  | none => (fresh, w.push (.content (.fields tag fields)))
  | some reg =>
    match reg.canonical.intern w.heap (canonicalPath tag fields) fresh with
    | (some v, _) => (v, w)
    | (none, canonical) =>
      let w := w.push (.content (.fields tag fields))
      (fresh, (w.updateRegistry r fun reg => {reg with canonical}).countFresh r)

end World

/-- An instance from positional arguments. -/
def Variant.construct (v : Variant) (args : List Value) : Run Value := do
  let fields ← Run.lift (v.positional args)
  Run.change (World.canonicalize v.registry v.tag fields)

/-! ### Declaring -/

namespace World

/-- A variant with the next tag of a registry; without fields it has its instance
at once. -/
def addVariant (r : RegistryId) (owner : UInt32) (spec : VariantSpec) (w : World) :
    Variant × World :=
  let id := ((w.registries[r]?).map (·.nextTag)).getD 0
  let tag : Tag := ⟨w.serials, id, spec.name, spec.fields, owner⟩
  let w := {w with serials := w.serials + 1}
  let w := w.updateRegistry r fun reg => {reg with nextTag := reg.nextTag + 1}
  if tag.isSingleton then
    let (v, w) := w.canonicalize r tag []
    (⟨tag, v.object?, r⟩, w)
  else (⟨tag, none, r⟩, w)

def addVariants (r : RegistryId) (owner : UInt32) :
    List VariantSpec → World → List Variant × World
  | [], w => ([], w)
  | spec :: rest, w =>
    let (v, w) := w.addVariant r owner spec
    let (vs, w) := addVariants r owner rest w
    (v :: vs, w)

/-- A declaration whose specification is good. -/
def addData (r : RegistryId) (name : String) (base? : Option Data) (specs : List VariantSpec)
    (w : World) : Data × World :=
  let id := ((w.registries[r]?).map (·.nextData)).getD 0
  let serial := w.serials
  let w := {w with serials := w.serials + 1}
  let w := w.updateRegistry r fun reg => {reg with nextData := reg.nextData + 1}
  let (own, w) := addVariants r id specs w
  let inherited := (base?.map Data.variants).getD []
  let ancestors := (base?.map fun b => b.asAncestor :: b.ancestors).getD []
  (⟨serial, id, name, inherited ++ own, ancestors⟩, w)

end World

/-- Declare data, perhaps extending other data. Nothing changes if the specification
is not good. -/
def declare (r : RegistryId) (name : String) (base? : Option Data) (specs : List VariantSpec) :
    Run Data := do
  Run.lift (checkVariants ((base?.map Data.variantNames).getD []) specs)
  Run.change (World.addData r name base? specs)

end OpenVariants

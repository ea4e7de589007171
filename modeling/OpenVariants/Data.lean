import OpenVariants.Fault
import OpenVariants.Text.Identifier
import OpenVariants.Value

/-! Data declarations.

A declaration is an ordered set of variants. One that extends another starts with
the other's variants, tags and all, so what the base constructs the extension
contains. Declarations are told apart by their serial, as tags are.

Before anything is made of a declaration its specification is checked
(`checkVariants`), in reading order. -/
namespace OpenVariants

/-- A variant: its tag, the instance it has if it has no fields, and the registry
it constructs in. -/
structure Variant where
  tag : Tag
  singleton? : Option ObjectId
  registry : Nat

namespace Variant

def name (v : Variant) : String := v.tag.name

/-- The instance of a variant without fields. -/
def singleton (v : Variant) : Except Fault Value :=
  match v.singleton? with
  | some id => .ok (.inst id)
  | none => .error (.construction (.notASingleton v.name))

end Variant

/-- What a declaration keeps of one that it extends. -/
structure Ancestor where
  serial : Nat
  name : String
  deriving DecidableEq, Repr

/-- A frozen declaration. The variants of the base come first; `ancestors` are the
extended declarations, nearest first. -/
structure Data where
  serial : Nat
  id : UInt32
  name : String
  variants : List Variant
  ancestors : List Ancestor

namespace Data

def same (a b : Data) : Bool := a.serial == b.serial

def variantNames (d : Data) : List String := d.variants.map (·.name)

def variant? (d : Data) (name : String) : Option Variant :=
  d.variants.find? (·.name == name)

/-- A variant by name, inherited ones included. -/
def variant (d : Data) (name : String) : Except Fault Variant :=
  match d.variant? name with
  | some v => .ok v
  | none => .error (.construction (.unknownVariant name))

/-- The instance of a variant without fields, by name. -/
def unit (d : Data) (name : String) : Except Fault Value := do
  (← d.variant name).singleton

/-- Whether a tag is that of one of the variants. -/
def hasTag (d : Data) (tag : Tag) : Bool :=
  (d.variant? tag.name).any (·.tag.same tag)

/-- The declaration as its extensions remember it. -/
def asAncestor (d : Data) : Ancestor := ⟨d.serial, d.name⟩

def base? (d : Data) : Option Ancestor := d.ancestors.head?

/-- Whether a declaration is another one or extends it, directly or not. -/
def extendsFrom (d other : Data) : Bool :=
  (d.asAncestor :: d.ancestors).any (·.serial == other.serial)

/-- The singleton instances, which live as long as the declaration is held. -/
def singletons (d : Data) : List Value :=
  d.variants.filterMap fun v => v.singleton?.map Value.inst

def text (d : Data) : String :=
  "data " ++ d.name ++ " = " ++ " | ".intercalate (d.variants.map (·.tag.text))

end Data

/-! ### Specifications -/

/-- A variant as it is asked for. -/
structure VariantSpec where
  name : String
  fields : List String
  deriving DecidableEq, Repr

/-- The fields of one variant have the shape of fields and differ from one another. -/
def checkFields (variant : String) : (seen fields : List String) → Except Fault Unit
  | _, [] => .ok ()
  | seen, field :: rest =>
    if !Text.isCamelCase field then .error (.declaration (.invalidName .field field))
    else if seen.contains field then .error (.declaration (.duplicateField variant field))
    else checkFields variant (field :: seen) rest

/-- The variants have the shape of variants and differ from one another and from
the names in `seen`; each has good fields. -/
def checkVariants : (seen : List String) → List VariantSpec → Except Fault Unit
  | _, [] => .ok ()
  | seen, spec :: rest =>
    if !Text.isCapitalized spec.name then .error (.declaration (.invalidName .variant spec.name))
    else if seen.contains spec.name then .error (.declaration (.duplicateVariant spec.name))
    else
      match checkFields spec.name [] spec.fields with
      | .error fault => .error fault
      | .ok _ => checkVariants (spec.name :: seen) rest

end OpenVariants

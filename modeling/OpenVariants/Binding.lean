import OpenVariants.Pattern

/-! What a name can stand for.

A program looks names up each time it runs. Facades, views and methods are plain
values of their own; registries, rule lists, traits, stores and knots are kept in
tables of the world and go by their position there. -/
namespace OpenVariants

abbrev RegistryId := Nat
abbrev RulesId := Nat
abbrev TraitId := Nat
abbrev StoreId := Nat
abbrev KnotId := Nat

/-- A declaration with traits bound to it, each under its name. -/
structure Facade where
  data : Data
  traits : List (String × TraitId)

namespace Facade

def traitNames (f : Facade) : List String := f.traits.map (·.1)

def trait? (f : Facade) (name : String) : Option TraitId :=
  (f.traits.find? (·.1 == name)).map (·.2)

def text (f : Facade) : String :=
  Text.labelled "Facade"
    [("data", Text.quoted f.data.name), ("traits", Text.quotedList f.traitNames)]

end Facade

/-- A read-only projection of an instance. -/
structure View where
  facade : Facade
  inst : ObjectId

/-- A trait bound to a receiver. -/
structure Method where
  trait : TraitId
  name : String
  receiver : Value

/-- What a name stands for. -/
inductive Binding where
  | registry (id : RegistryId)
  | data (d : Data)
  | value (v : Value)
  | pattern (p : Pattern)
  | rules (id : RulesId)
  | trait (id : TraitId)
  | facade (f : Facade)
  | view (v : View)
  | method (m : Method)
  | store (id : StoreId)
  | knot (id : KnotId)
  /-- A handle that does not keep its value alive. -/
  | weak (v : Value)

end OpenVariants

import OpenVariants.Data

/-! The forms of arguments that a variant is constructed from.

Positional arguments are as many as there are fields. Keyed arguments are a record
with exactly the field names, in any order. Where both are allowed, a record as the
only argument may be either (`readsAsKeyed`). -/
namespace OpenVariants

namespace Variant

/-- Positional arguments: as many as there are fields. -/
def positional (v : Variant) (args : List Value) : Except Fault (List Value) :=
  if args.length = v.tag.arity then .ok args
  else .error (.construction (.argumentCount v.name v.tag.arity args.length))

/-- The values of the fields in order; the first missing one is a fault. -/
def gather (v : Variant) (entries : List (String × Value)) :
    List String → Except Fault (List Value)
  | [] => .ok []
  | field :: rest =>
    match entries.lookup field with
    | none => .error (.construction (.missingField v.name field))
    | some value =>
      match v.gather entries rest with
      | .ok values => .ok (value :: values)
      | .error fault => .error fault

/-- Keyed arguments: exactly the field names, in any order. -/
def keyed (v : Variant) (entries : List (String × Value)) : Except Fault (List Value) :=
  match entries.find? fun entry => (v.tag.fieldIndex? entry.1).isNone with
  | some extra => .error (.construction (.unknownField v.name extra.1))
  | none => v.gather entries v.tag.fields

/-- Whether a record as the only argument is read as keyed arguments: it is when
there are several fields, or when the only one is among the keys. -/
def readsAsKeyed (v : Variant) (entries : List (String × Value)) : Bool :=
  match v.tag.fields with
  | [] => false
  | [only] => (entries.lookup only).isSome
  | _ => true

/-- Arguments of either form; `entries` are those of the record that is the only
argument. -/
def ofRecord (v : Variant) (args : List Value) (entries : List (String × Value)) :
    Except Fault (List Value) :=
  if v.readsAsKeyed entries then v.keyed entries else v.positional args

end Variant

end OpenVariants

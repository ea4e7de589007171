import OpenVariants.Evaluation

/-! Facades and views.

A facade binds traits to a declaration, each under its name. No trait may take the
name of another one or of a field of any variant, so a member of a view is one
thing: a field of its variant, or else a trait. -/
namespace OpenVariants

namespace Facade

/-- Bind traits one after the other; the first that clashes is a fault. -/
def bindTraits (d : Data) (bound : List (String × TraitId)) :
    List Trait → Except Fault (List (String × TraitId))
  | [] => .ok bound
  | t :: rest =>
    if bound.any (·.1 == t.name) then .error (.composition (.duplicateMember t.name))
    else
      match d.variants.find? fun v => (v.tag.fieldIndex? t.name).isSome with
      | some v => .error (.composition (.nameClash t.name v.name))
      | none => bindTraits d (bound ++ [(t.name, t.layer.id)]) rest

/-- The facade of a declaration and traits. -/
def compose (d : Data) (traits : List Trait) : Except Fault Facade :=
  match bindTraits d [] traits with
  | .ok bound => .ok ⟨d, bound⟩
  | .error fault => .error fault

/-- The view of a variant without fields. -/
def unit (f : Facade) (name : String) : Except Fault View :=
  match f.data.unit name with
  | .ok (.inst id) => .ok ⟨f, id⟩
  | .ok _ => .error (.construction (.notASingleton name))
  | .error fault => .error fault

/-- The view of what a construction gave, which is not looked at. -/
def view (f : Facade) (v : Value) (w : World) : Except Fault View :=
  match v with
  | .inst id => .ok ⟨f, id⟩
  | _ => .error (.composition (.foreignInstance (w.heap.written v)))

/-- The view of any value that is an instance of the declaration. -/
def wrap (f : Facade) (v : Value) (w : World) : Except Fault View :=
  match v, w.heap.instance? v with
  | .inst id, some (tag, _) =>
    if f.data.hasTag tag then .ok ⟨f, id⟩
    else .error (.composition (.foreignInstance (w.heap.written v)))
  | _, _ => .error (.composition (.foreignInstance (w.heap.written v)))

end Facade

/-- What a member of a view is. -/
inductive Member where
  | field (v : Value)
  | method (m : Method)

namespace View

def value (v : View) : Value := .inst v.inst

/-- A trait bound to the instance, if it has a case for it. -/
def bind (v : View) (variant : String) (id : TraitId) (w : World) : Except Fault Method :=
  match w.traits[id]? with
  | some t =>
    if t.resolves variant then .ok ⟨id, t.name, v.value⟩
    else .error (.composition (.missingCase t.name variant))
  | none => .error (.composition (.unknownMember variant ""))

/-- The field or the method of a name. -/
def member (perform : Performer) (v : View) (name : String) : Run Member := do
  let w ← get
  match w.heap.instance? v.value with
  | none => Run.fail (.composition (.unknownMember "" name))
  | some (tag, _) =>
    match tag.fieldIndex? name with
    | some index => return .field (← readAt perform v.inst index)
    | none =>
      match v.facade.trait? name with
      | some id => return .method (← Run.lift (v.bind tag.name id w))
      | none => Run.fail (.composition (.unknownMember tag.name name))

/-- The method of a name. -/
def method (perform : Performer) (v : View) (name : String) : Run Method := do
  match ← v.member perform name with
  | .method m => pure m
  | .field _ =>
    let w ← get
    let variant := ((w.heap.instance? v.value).map (·.1.name)).getD ""
    Run.fail (.composition (.unknownMember variant name))

end View

/-- Call a method; the receiver comes before the arguments. -/
def Method.call (perform : Performer) (m : Method) (args : List Value) : Run Value :=
  perform none (.call m.trait (m.receiver :: args))

/-- Call a member of a view as a method. -/
def View.call (perform : Performer) (v : View) (name : String) (args : List Value) : Run Value := do
  (← v.method perform name).call perform args

end OpenVariants

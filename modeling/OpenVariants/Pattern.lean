import OpenVariants.Data
import OpenVariants.Text.Quoted

/-! Structural patterns. -/
namespace OpenVariants

inductive Pattern where
  /-- Matches anything. -/
  | wildcard
  /-- Matches a value that is the same. -/
  | literal (v : Value)
  /-- Matches a record or an instance that has every key; further keys do not matter. -/
  | record (entries : List (String × Pattern))
  /-- Matches a list or an instance with exactly these elements. -/
  | list (items : List Pattern)
  | kind (k : Kind)
  /-- Matches any instance of one variant. -/
  | tag (t : Tag)
  /-- Matches any instance of a declaration. -/
  | data (d : Data)
  /-- Matches an instance of one variant field by field. -/
  | variant (t : Tag) (fields : List Pattern)
  deriving Inhabited

namespace Pattern

/-- The pattern of a variant, with one pattern a field. -/
def ofVariant (v : Variant) (fields : List Pattern) : Except Fault Pattern :=
  if fields.length = v.tag.arity then .ok (.variant v.tag fields)
  else .error (.declaration (.wrongFieldCount v.name v.tag.arity fields.length))

mutual

/-- How a pattern is written, given how values are. -/
def text (write : Value → String) : Pattern → String
  | .wildcard => "_"
  | .literal v => write v
  | .record entries => Text.braced (entryTexts write entries)
  | .list items => Text.enclosed "[" "]" (texts write items)
  | .kind k => s!"<{k.name}>"
  | .tag t => t.name
  | .data d => s!"<{d.name}>"
  | .variant t fields => t.name ++ Text.enclosed "(" ")" (texts write fields)

def texts (write : Value → String) : List Pattern → List String
  | [] => []
  | p :: rest => text write p :: texts write rest

def entryTexts (write : Value → String) : List (String × Pattern) → List (String × String)
  | [] => []
  | (key, p) :: rest => (key, text write p) :: entryTexts write rest

end

mutual

/-- The values that a pattern holds: its literals, and the singletons of a
declaration in it. -/
def heldValues : Pattern → List Value
  | .literal v => [v]
  | .record entries => entriesHeld entries
  | .list items | .variant _ items => itemsHeld items
  | .data d => d.singletons
  | .wildcard | .kind _ | .tag _ => []

def itemsHeld : List Pattern → List Value
  | [] => []
  | p :: rest => heldValues p ++ itemsHeld rest

def entriesHeld : List (String × Pattern) → List Value
  | [] => []
  | (_, p) :: rest => heldValues p ++ entriesHeld rest

end

end Pattern

end OpenVariants

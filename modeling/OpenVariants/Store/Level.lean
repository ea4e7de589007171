import OpenVariants.Key

/-! Tries of keys.

A trie holds values under paths of keys. Each level maps a key to an entry: the
value stored for the path that ends there, if any, and the level for the next
key. Values are held strongly or weakly; an entry whose key or value died is
passed over by every reading and stays until a purge removes it.

Which objects are living is a parameter, fixed during each operation. -/
namespace OpenVariants.Store

/-- A value with the way it is held. -/
inductive Stored where
  | strong (v : Value)
  | weak (v : Value)

namespace Stored

def value : Stored → Value
  | strong v | weak v => v

/-- What is held strongly is alive; what is held weakly is alive while its object is. -/
def alive (living : ObjectId → Bool) : Stored → Bool
  | strong _ => true
  | weak v => v.object?.all living

def load (living : ObjectId → Bool) (s : Stored) : Option Value :=
  if s.alive living then some s.value else none

/-- The value, if it is held strongly. -/
def strong? : Stored → Option Value
  | strong v => some v
  | weak _ => none

end Stored

/-- The entries of one level, each with its key; `next` is the level below it. -/
inductive Level where
  | nil
  | cons (key : Key) (value : Option Stored) (next rest : Level)
  deriving Inhabited

/-- What a level has under one key. -/
structure Entry where
  value : Option Stored
  next : Level

namespace Level

def isEmpty : Level → Bool
  | nil => true
  | cons .. => false

/-! ### Reading -/

def under? : Level → Key → Option Entry
  | nil, _ => none
  | cons key value next rest, k => if key = k then some ⟨value, next⟩ else rest.under? k

/-- What is stored at the end of a path, dead or alive. -/
def stored? : List Key → Level → Option Stored
  | [], _ => none
  | k :: path, level =>
    match level.under? k with
    | none => none
    | some entry => if path.isEmpty then entry.value else stored? path entry.next

/-- The living value at the end of a path. -/
def get? (living : ObjectId → Bool) (path : List Key) (level : Level) : Option Value :=
  (level.stored? path).bind (·.load living)

/-! ### Writing -/

def hasKey : Level → Key → Bool
  | nil, _ => false
  | cons key _ _ rest, k => key = k || rest.hasKey k

/-- The entry under a key changed; a level without the key stays as it is. -/
def adjust (k : Key) (change : Entry → Entry) : Level → Level
  | nil => nil
  | cons key value next rest =>
    if key = k then
      let entry := change ⟨value, next⟩
      cons key entry.value entry.next rest
    else cons key value next (rest.adjust k change)

/-- The entry under a key changed, made first if there was none. -/
def alter (k : Key) (change : Entry → Entry) (level : Level) : Level :=
  if level.hasKey k then level.adjust k change
  else
    let entry := change ⟨none, nil⟩
    cons k entry.value entry.next level

/-- A value stored at the end of a path, with the levels on the way. -/
def insert (s : Stored) : List Key → Level → Level
  | [], level => level
  | k :: path, level =>
    level.alter k fun entry =>
      if path.isEmpty then {entry with value := some s}
      else {entry with next := insert s path entry.next}

/-- No value at the end of a path; the entry itself stays. -/
def erase : List Key → Level → Level
  | [], level => level
  | k :: path, level =>
    level.adjust k fun entry =>
      if path.isEmpty then {entry with value := none}
      else {entry with next := erase path entry.next}

/-- The living value at the end of a path, or the level with the value stored there.
A key that is not there is looked for once. -/
def intern (living : ObjectId → Bool) (s : Stored) : List Key → Level → Option Value × Level
  | [], level => (none, level)
  | k :: path, level =>
    match level.under? k with
    | none =>
      if path.isEmpty then (none, cons k (some s) nil level)
      else (none, cons k none (insert s path nil) level)
    | some entry =>
      if path.isEmpty then
        match entry.value.bind (·.load living) with
        | some v => (some v, level)
        | none => (none, level.adjust k fun entry => {entry with value := some s})
      else
        match intern living s path entry.next with
        | (some v, _) => (some v, level)
        | (none, next) => (none, level.adjust k fun entry => {entry with next})

/-! ### Counting and purging -/

/-- All stored values, dead or alive. -/
def countAll : Level → Nat
  | nil => 0
  | cons _ value next rest => value.toList.length + next.countAll + rest.countAll

/-- The living values under living keys. -/
def countLive (living : ObjectId → Bool) : Level → Nat
  | nil => 0
  | cons key value next rest =>
    let here :=
      if key.alive living then
        (if value.any (·.alive living) then 1 else 0) + next.countLive living
      else 0
    here + rest.countLive living

/-- Without what died: entries under dead keys with all below them, dead values,
and entries that are left with neither a value nor a level below. -/
def purged (living : ObjectId → Bool) : Level → Level
  | nil => nil
  | cons key value next rest =>
    let rest := rest.purged living
    if key.alive living then
      let value := value.filter (·.alive living)
      let next := next.purged living
      if value.isNone && next.isEmpty then rest else cons key value next rest
    else rest

/-- How many stored values a purge releases: all of them under a dead key, and the
dead ones under living keys. -/
def released (living : ObjectId → Bool) : Level → Nat
  | nil => 0
  | cons key value next rest =>
    let here :=
      if key.alive living then
        (if value.any (!·.alive living) then 1 else 0) + next.released living
      else value.toList.length + next.countAll
    here + rest.released living

/-! ### What is held -/

/-- The values held strongly, under dead keys too. -/
def strongValues : Level → List Value
  | nil => []
  | cons _ value next rest =>
    (value.bind (·.strong?)).toList ++ next.strongValues ++ rest.strongValues

end Level

end OpenVariants.Store

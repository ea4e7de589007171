import OpenVariants.Proofs.Agree

/-! What answers requests, as programs.

Matching a value against a pattern, reading a field and choosing a rule only ask about
the world and evaluate lazies, so each of them is a program like the bodies that request
it (`run_matching`, `run_fieldAt`, `Case.run_program`). Then nothing but programs runs
between the calls of traits. -/
namespace OpenVariants

namespace Program

/-- The tag and the stored fields of an instance. -/
def instanceOf (v : Value) : Program (Option (Tag × List Value)) := do
  match v, ← query (.content v) with
  | .inst _, some (.fields tag values) => pure (some (tag, values))
  | _, _ => pure none

/-- The value of a field: what is stored there, or what a lazy there gives. -/
def fieldValue (tag : Tag) (index : Nat) : Value → Program Value
  | .lazy id => request (.force id) fun
    | .ok v => pure v
    | .error f => fail (f.located ⟨tag.name, (tag.fields[index]?).getD ""⟩)
  | v => pure v

/-- The fields of an instance in order, each to be read when it is needed. -/
def fieldValues (tag : Tag) (values : List Value) : List (Program Value) :=
  values.mapIdx fun index v => fieldValue tag index v

/-- A field by its position; there may be none. -/
def indexedValue (tag : Tag) (values : List Value) (index : Nat) : Program Value :=
  match values[index]? with
  | some v => fieldValue tag index v
  | none => fail (.construction (.unknownField tag.name s!"#{index}"))

/-- A field of an instance by its position. -/
def fieldAt (id : ObjectId) (index : Nat) : Program Value := do
  match ← instanceOf (.inst id) with
  | none => pure .null
  | some (tag, values) => indexedValue tag values index

end Program

open Program

/-! ### Patterns and rules -/

mutual

/-- Whether a value matches a pattern. -/
def Pattern.matching : Pattern → Value → Program Bool
  | .wildcard, _ => pure true
  | .literal expected, v => pure (v.same expected)
  | .kind k, v => pure (v.kind == k)
  | .tag t, v => do pure ((← instanceOf v).any fun (tag, _) => tag.same t)
  | .data d, v => do pure ((← instanceOf v).any fun (tag, _) => d.hasTag tag)
  | .record entries, v => do
    match v, ← query (.content v) with
    | .record _, some (.entries values) =>
      matchEntries entries fun key => (values.lookup key).map pure
    | .inst _, some (.fields tag values) =>
      matchEntries entries fun key => (tag.fieldIndex? key).bind ((fieldValues tag values)[·]?)
    | _, _ => pure false
  | .list items, v => do
    match v, ← query (.content v) with
    | .list _, some (.items values) =>
      if values.length = items.length then matchItems items (values.map pure) else pure false
    | .inst _, some (.fields tag values) =>
      if values.length = items.length then matchItems items (fieldValues tag values)
      else pure false
    | _, _ => pure false
  | .variant t fields, v => do
    match ← instanceOf v with
    | some (tag, values) =>
      if tag.same t then
        matchItems fields (fields.mapIdx fun index _ => indexedValue tag values index)
      else pure false
    | none => pure false

/-- Whether values match patterns one by one. -/
def matchItems : List Pattern → List (Program Value) → Program Bool
  | p :: patterns, read :: reads => do
    if ← p.matching (← read) then matchItems patterns reads else pure false
  | _, _ => pure true

/-- Whether every key is there with a value that matches. -/
def matchEntries : List (String × Pattern) → (String → Option (Program Value)) → Program Bool
  | [], _ => pure true
  | (key, p) :: rest, read? =>
    match read? key with
    | none => pure false
    | some read => do
      if ← p.matching (← read) then matchEntries rest read? else pure false

end

/-- Whether all patterns of a rule match. -/
def Rule.matching (args : List Value) (rule : Rule) : Program Bool :=
  matchItems rule.patterns (rule.patterns.mapIdx fun index _ => pure ((args[index]?).getD .null))

/-- The first rule that matches. -/
def Rules.selecting (args : List Value) : List Rule → Program (Option Rule)
  | [] => pure none
  | rule :: rest => do
    if ← rule.matching args then pure (some rule) else Rules.selecting args rest

/-- What a case of a trait does on the arguments of its call. -/
def Case.program (trait name : String) (args : List Value) : Case → Program Value
  | .handler body => body args
  | .rules list => do
    match ← Rules.selecting args list.rules with
    | some rule => rule.handler args
    | none => fail (.dispatch (.noRule trait name (← query (.written (args.head?.getD .null)))))

/-! ### Their runs -/

section
variable {P : Performer} {frame : Option Frame}

theorem Program.run_bind_eq (p : Program α) (f : α → Program β) :
    (p >>= f).run P frame = p.run P frame >>= fun a => (f a).run P frame :=
  funext (run_bind P frame p f)

theorem run_content {v : Value} {f : Option Content → Program α} {g : World → Run α}
    (h : ∀ w, (f (w.heap.content? v)).run P frame = g w) :
    (query (.content v) >>= f).run P frame = get >>= g := by
  funext w
  exact congrFun (h w) w

theorem run_instanceOf {v : Value} {f : Option (Tag × List Value) → Program α} {g : World → Run α}
    (h : ∀ w, (f (w.heap.instance? v)).run P frame = g w) :
    (instanceOf v >>= f).run P frame = get >>= g := by
  funext w
  have hinstance : (instanceOf v).run P frame w = (.ok (w.heap.instance? v), w) := by
    unfold instanceOf Heap.instance?
    rw [run_content fun w => rfl, Run.bind_apply, Run.get_apply]
    dsimp only
    split
    · next h =>
      rw [h]
      rfl
    · next hinst =>
      split
      · next h => exact (hinst _ _ _ rfl h).elim
      · rfl
  rw [run_bind, Run.bind_apply, hinstance]
  exact congrFun (h w) w

/-- A lazy does the same in every call. -/
def ForcesAlike (P : Performer) (frame : Option Frame) : Prop :=
  ∀ id, P frame (.force id) = P none (.force id)

theorem run_fieldValue (hP : ForcesAlike P frame) (tag : Tag) (index : Nat) (v : Value) :
    (fieldValue tag index v).run P frame = readField P tag index v := by
  funext w
  cases v with
  | lazy id =>
    simp only [fieldValue, readField, run, hP id, Run.at]
    rcases P none (.force id) w with ⟨(_ | _) | _, _⟩ <;> rfl
  | _ => rfl

theorem run_fieldValues (hP : ForcesAlike P frame) (tag : Tag) (values : List Value) :
    (fieldValues tag values).map (·.run P frame) = fieldReads P tag values := by
  refine List.ext_getElem? fun i => ?_
  simp [fieldValues, fieldReads, Function.comp_def, run_fieldValue hP]

theorem run_indexedValue (hP : ForcesAlike P frame) (tag : Tag) (values : List Value)
    (index : Nat) : (indexedValue tag values index).run P frame = indexedRead P tag values index := by
  unfold indexedValue indexedRead
  cases values[index]? with
  | none => rfl
  | some v => exact run_fieldValue hP tag index v

theorem run_indexedValues (hP : ForcesAlike P frame) (tag : Tag) (values : List Value)
    (fields : List Pattern) :
    (fields.mapIdx fun index _ => indexedValue tag values index).map (·.run P frame) =
      fields.mapIdx fun index _ => indexedRead P tag values index := by
  refine List.ext_getElem? fun i => ?_
  simp [Function.comp_def, run_indexedValue hP]

theorem run_fieldAt (hP : ForcesAlike P frame) (id : ObjectId) (index : Nat) :
    (fieldAt id index).run P frame = readAt P id index := by
  refine run_instanceOf fun w => ?_
  rcases w.heap.instance? (.inst id) with _ | ⟨tag, values⟩
  · rfl
  · exact run_indexedValue hP tag values index

mutual

theorem run_matching (hP : ForcesAlike P frame) (p : Pattern) (v : Value) :
    (p.matching v).run P frame = unify P p v := by
  cases p with
  | wildcard | literal | kind => simp only [Pattern.matching, unify]; rfl
  | tag | data =>
    simp only [Pattern.matching, unify]
    exact run_instanceOf fun w => rfl
  | record entries =>
    rw [Pattern.matching, unify]
    refine run_content fun w => ?_
    generalize w.heap.content? v = content
    split
    · rw [run_matchEntries hP]
      simp only [Option.map_map]
      rfl
    · rw [run_matchEntries hP]
      simp only [Option.map_bind, ← run_fieldValues hP, List.getElem?_map]
      rfl
    · next hrecord hinst =>
      split
      · exact (hrecord _ _ rfl rfl).elim
      · exact (hinst _ _ _ rfl rfl).elim
      · rfl
  | list items =>
    rw [Pattern.matching, unify]
    refine run_content fun w => ?_
    generalize w.heap.content? v = content
    split
    · dsimp only
      split
      · rw [run_matchItems hP, List.map_map]
        rfl
      · rfl
    · dsimp only
      split
      · rw [run_matchItems hP, run_fieldValues hP]
      · rfl
    · next hlist hinst =>
      split
      · exact (hlist _ _ rfl rfl).elim
      · exact (hinst _ _ _ rfl rfl).elim
      · rfl
  | variant t fields =>
    rw [Pattern.matching, unify]
    refine run_instanceOf fun w => ?_
    cases w.heap.instance? v with
    | none => rfl
    | some found =>
      dsimp only
      split
      · rw [run_matchItems hP, run_indexedValues hP]
      · rfl

theorem run_matchItems (hP : ForcesAlike P frame) (patterns : List Pattern)
    (reads : List (Program Value)) :
    (matchItems patterns reads).run P frame = unifyItems P patterns (reads.map (·.run P frame)) := by
  cases patterns with
  | nil => simp only [matchItems, unifyItems]; rfl
  | cons p patterns =>
    cases reads with
    | nil => simp only [matchItems]; rfl
    | cons read reads =>
      simp only [matchItems, unifyItems, List.map_cons, run_bind_eq, run_matching hP p]
      congr 1
      funext v
      congr 1
      funext matched
      split
      · exact run_matchItems hP patterns reads
      · rfl

theorem run_matchEntries (hP : ForcesAlike P frame) (entries : List (String × Pattern))
    (read? : String → Option (Program Value)) :
    (matchEntries entries read?).run P frame =
      unifyEntries P entries fun key => (read? key).map (·.run P frame) := by
  cases entries with
  | nil => simp only [matchEntries, unifyEntries]; rfl
  | cons entry rest =>
    obtain ⟨key, p⟩ := entry
    rw [matchEntries, unifyEntries]
    cases hread : read? key with
    | none => rfl
    | some read =>
      simp only [Option.map_some, run_bind_eq, run_matching hP p]
      congr 1
      funext v
      congr 1
      funext matched
      split
      · exact run_matchEntries hP rest read?
      · rfl

end

theorem Rule.run_matching (hP : ForcesAlike P frame) (args : List Value) (rule : Rule) :
    (rule.matching args).run P frame = rule.matches P args := by
  unfold Rule.matching Rule.matches
  rw [run_matchItems hP]
  congr 1
  refine List.ext_getElem? fun i => ?_
  simp [Function.comp_def]
  rfl

theorem Rules.run_selecting (hP : ForcesAlike P frame) (args : List Value) (rules : List Rule) :
    (Rules.selecting args rules).run P frame = Rules.select P args rules := by
  induction rules with
  | nil => rfl
  | cons rule rest ih =>
    simp only [Rules.selecting, Rules.select, run_bind_eq, rule.run_matching hP]
    congr 1
    funext matched
    split
    · rfl
    · exact ih

end

theorem forcesAlike_perform (n : Nat) (frame : Option Frame) : ForcesAlike (perform n) frame := by
  intro id
  cases n <;> rfl

/-- A case runs as its program does. -/
theorem Case.run_program (n : Nat) (frame : Frame) (name : String) (args : List Value) (c : Case) :
    (c.program frame.invoked.name name args).run (perform n) (some frame) =
      c.run (perform n) frame name args := by
  cases c with
  | handler body => rfl
  | rules list =>
    simp only [Case.program, Case.run, run_bind_eq, Rules.run_selecting (forcesAlike_perform n _)]
    congr 1
    funext rule?
    cases rule? <;> rfl

end OpenVariants

import OpenVariants.Proofs.Heap
import OpenVariants.Proofs.Run

/-! Forms of construction.

A variant gives an instance for positional arguments, for a record with the names of
the fields, for arguments of either form, or, without fields, for none. Whatever the
form, the arguments come down to a list in the order of the fields, and the instance
is the canonical one for that list (`Form.run_eq`). -/
namespace OpenVariants

/-- How a variant is asked for an instance. -/
inductive Form where
  | positional (args : List Value)
  | keyed (entries : List (String × Value))
  /-- Arguments of either form; a record as the only one may hold the fields. -/
  | applied (args : List Value)
  /-- The instance that a variant without fields has. -/
  | unit

/-- The entries of a record; anything else has none. -/
def Heap.entries (h : Heap) (v : Value) : List (String × Value) :=
  match v, h.content? v with
  | .record _, some (.entries entries) => entries
  | _, _ => []

namespace Form

/-- The values that are in hand for it. -/
def values : Form → List Value
  | positional args | applied args => args
  | keyed entries => entries.map (·.2)
  | unit => []

/-- The arguments in the order of the fields, if they are good. -/
def fields (h : Heap) (v : Variant) : Form → Except Fault (List Value)
  | positional args => v.positional args
  | keyed entries => v.keyed entries
  | applied [.record id] => v.ofRecord [.record id] (h.entries (.record id))
  | applied args => v.positional args
  | unit => v.singleton.map fun _ => []

def run (v : Variant) : Form → Run Value
  | positional args => v.construct args
  | keyed entries => (Program.constructKeyed v entries).exec
  | applied args => (Program.constructApply v args).exec
  | unit => Run.lift v.singleton

end Form

/-! ### Arguments in the order of the fields -/

theorem gather_length {v : Variant} {entries : List (String × Value)} {names : List String}
    {values : List Value} (h : v.gather entries names = .ok values) :
    values.length = names.length := by
  induction names generalizing values with
  | nil => cases h; rfl
  | cons field rest ih =>
    rw [Variant.gather] at h
    cases hl : entries.lookup field with
    | none => simp [hl] at h
    | some value =>
      cases hg : v.gather entries rest with
      | error f => simp [hl, hg] at h
      | ok values' =>
        simp only [hl, hg, Except.ok.injEq] at h
        rw [← h, List.length_cons, List.length_cons, ih hg]

theorem positional_ok {v : Variant} {args values : List Value} (h : v.positional args = .ok values) :
    values = args ∧ args.length = v.tag.arity := by
  unfold Variant.positional at h
  split at h
  · next hl =>
    cases h
    exact ⟨rfl, hl⟩
  · cases h

theorem keyed_ok {v : Variant} {entries : List (String × Value)} {values : List Value}
    (h : v.keyed entries = .ok values) : v.gather entries v.tag.fields = .ok values := by
  unfold Variant.keyed at h
  split at h
  · cases h
  · exact h

/-- Good arguments of any form are as many as there are fields. -/
theorem fields_length {h : Heap} {v : Variant} {form : Form} {values : List Value}
    (hu : form ≠ .unit) (hf : form.fields h v = .ok values) : values.length = v.tag.arity := by
  have hpos : ∀ args, v.positional args = .ok values → values.length = v.tag.arity := by
    intro args hp
    obtain ⟨rfl, hl⟩ := positional_ok hp
    exact hl
  have hkeyed : ∀ entries, v.keyed entries = .ok values → values.length = v.tag.arity :=
    fun entries hk => gather_length (keyed_ok hk)
  unfold Form.fields at hf
  split at hf
  · exact hpos _ hf
  · exact hkeyed _ hf
  · unfold Variant.ofRecord at hf
    split at hf
    · exact hkeyed _ hf
    · exact hpos _ hf
  · exact hpos _ hf
  · exact absurd rfl hu

theorem gather_mem {v : Variant} {entries : List (String × Value)} {names : List String}
    {values : List Value} (h : v.gather entries names = .ok values) {a : Value} (ha : a ∈ values) :
    a ∈ entries.map (·.2) := by
  induction names generalizing values with
  | nil => cases h; cases ha
  | cons field rest ih =>
    rw [Variant.gather] at h
    cases hl : entries.lookup field with
    | none => simp [hl] at h
    | some value =>
      cases hg : v.gather entries rest with
      | error f => simp [hl, hg] at h
      | ok values' =>
        simp only [hl, hg, Except.ok.injEq] at h
        rw [← h, List.mem_cons] at ha
        rcases ha with rfl | ha
        · obtain ⟨l₁, l₂, he, _⟩ := List.lookup_eq_some_iff.mp hl
          simp [he]
        · exact ih hg ha

theorem entries_proper {h : Heap} (hs : h.Sound) {v a : Value} (ha : a ∈ (h.entries v).map (·.2)) :
    h.Proper a := by
  unfold Heap.entries at ha
  split at ha
  · next id entries hc =>
    unfold Heap.content? at hc
    split at hc
    · next c ho =>
      cases hc
      have ho : h.object? id = some (.content (.entries entries)) := by
        simpa [Value.object?] using ho
      exact (hs id _ ho a ha).1
    · cases hc
  · cases ha

/-- The arguments are among the values in hand. -/
theorem fields_proper {h : Heap} (hs : h.Sound) {v : Variant} {form : Form} {values : List Value}
    (hin : ∀ a ∈ form.values, h.Proper a) (hf : form.fields h v = .ok values) :
    ∀ a ∈ values, h.Proper a := by
  intro a ha
  unfold Form.fields at hf
  split at hf
  · obtain ⟨rfl, _⟩ := positional_ok hf
    exact hin a ha
  · exact hin a (gather_mem (keyed_ok hf) ha)
  · unfold Variant.ofRecord at hf
    split at hf
    · exact entries_proper hs (gather_mem (keyed_ok hf) ha)
    · obtain ⟨rfl, _⟩ := positional_ok hf
      exact hin a ha
  · obtain ⟨rfl, _⟩ := positional_ok hf
    exact hin a ha
  · unfold Except.map at hf
    split at hf
    · cases hf
    · cases hf
      cases ha

/-! ### Construction on checked arguments -/

theorem performAll_construct (frame : Option Frame) (v : Variant) (args : List Value) :
    performAll frame (.construct v args) = v.construct args := by
  obtain ⟨n, hn⟩ : ∃ n, nestingBound = n + 1 := ⟨999999999, rfl⟩
  unfold performAll
  rw [hn]
  rfl

/-- An instance on arguments, or the fault that is in them. -/
def Variant.constructOn (v : Variant) (fields : Except Fault (List Value)) (w : World) :
    Except Stop Value × World :=
  match fields with
  | .ok values =>
    (.ok (w.canonicalize v.registry v.tag values).1, (w.canonicalize v.registry v.tag values).2)
  | .error f => (.error (.fault f), w)

theorem construct_ok {v : Variant} {args : List Value} (h : args.length = v.tag.arity) (w : World) :
    v.construct args w =
      (.ok (w.canonicalize v.registry v.tag args).1, (w.canonicalize v.registry v.tag args).2) := by
  simp [Variant.construct, Variant.positional, h]

/-- Constructing from arguments that were checked is constructing on them. -/
theorem checked_exec (v : Variant) (r : Except Fault (List Value)) (w : World)
    (hlen : ∀ values, r = .ok values → values.length = v.tag.arity) :
    (do Program.perform (.construct v (← Program.lift r)) : Program Value).exec w =
      v.constructOn r w := by
  cases r with
  | error f => rfl
  | ok values =>
    simp only [Program.lift, bind, Program.bind, Program.exec, Program.perform, Program.run,
      performAll_construct, construct_ok (hlen values rfl)]
    rfl

theorem entriesOf_exec (id : ObjectId) (w : World) :
    (Program.entriesOf (.record id)).exec w = (.ok (w.heap.entries (.record id)), w) := by
  rw [Program.exec, Program.entriesOf, Program.run_bind, Run.bind_apply, Program.run_query]
  simp only [World.answer, Heap.entries]
  cases w.heap.content? (.record id) with
  | none => rfl
  | some c => cases c <;> rfl

theorem perform_construct_exec (v : Variant) (args : List Value) (w : World) :
    (Program.perform (.construct v args)).exec w = v.construct args w := by
  simp only [Program.exec, Program.perform, Program.run, performAll_construct]
  rcases v.construct args w with ⟨(_ | _) | _, _⟩ <;> rfl

/-- Every form constructs on its arguments, or faults and changes nothing. -/
theorem Form.run_eq (v : Variant) (form : Form) (w : World) (hu : form ≠ .unit) :
    form.run v w = v.constructOn (form.fields w.heap v) w := by
  have hlen := fun values (hf : form.fields w.heap v = .ok values) => fields_length hu hf
  have hpositional : ∀ args, v.construct args w = v.constructOn (v.positional args) w := by
    intro args
    simp only [Variant.construct, Variant.constructOn, Run.bind_apply, Run.lift_apply]
    cases v.positional args <;> rfl
  unfold run
  split
  · exact hpositional _
  · exact checked_exec v _ w hlen
  · next args =>
    unfold Program.constructApply
    split
    · next id =>
      rw [Program.exec, Program.run_bind, Run.bind_apply, ← Program.exec, entriesOf_exec]
      exact checked_exec v _ w hlen
    · next hrecord =>
      rw [perform_construct_exec, hpositional, fields]
      exact hrecord
  · exact absurd rfl hu

/-- A construction that succeeds gives the canonical instance on its arguments or, asked
for none, the instance that the variant has. -/
theorem Form.run_ok {v : Variant} {form : Form} {x : Value} {w w' : World}
    (hrun : form.run v w = (.ok x, w')) :
    (∃ values, form.fields w.heap v = .ok values ∧ values.length = v.tag.arity ∧
      w.canonicalize v.registry v.tag values = (x, w')) ∨
    (form = .unit ∧ w' = w ∧ v.singleton = .ok x) := by
  by_cases hu : form = .unit
  · subst hu
    right
    rw [run, Run.lift_apply] at hrun
    cases hsingle : v.singleton with
    | error f =>
      rw [hsingle] at hrun
      cases hrun
    | ok y =>
      rw [hsingle] at hrun
      cases hrun
      exact ⟨rfl, rfl, rfl⟩
  · left
    rw [run_eq v form w hu] at hrun
    cases hf : form.fields w.heap v with
    | error f =>
      rw [hf] at hrun
      cases hrun
    | ok values =>
      rw [hf] at hrun
      cases hrun
      exact ⟨values, rfl, fields_length hu hf, rfl⟩

end OpenVariants

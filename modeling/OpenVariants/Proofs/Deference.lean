import OpenVariants.Proofs.Canonical
import OpenVariants.Proofs.Conduct
import OpenVariants.Proofs.Pure
import OpenVariants.Proofs.Stores

/-! Programs that defer to their base.

A body may call no trait at all, or no other one than the base of its own trait
(`Program.Defers`). What it makes, functions and lazies, calls none. Reading, matching and the
choice of a rule call none either, so a case defers if its bodies do
(`Case.Defers.program`). -/
namespace OpenVariants

/-- A request that calls no trait, or perhaps the base. -/
def Request.Allowed (base : Bool) : Request → Prop
  | .call .. | .recur _ => False
  | .base _ => base = true
  | _ => True

/-- A program that calls no trait, or none but the base, and makes nothing that calls one. -/
inductive Program.Defers : Bool → {α : Type} → Program α → Prop
  | done {base : Bool} {α : Type} (result : Except Fault α) : Defers base (.done result)
  | ask {base : Bool} {α : Type} {q : Query} {next : q.Answer → Program α}
    (h : ∀ a, Defers base (next a)) : Defers base (.ask q next)
  | make {base : Bool} {α : Type} {content : Content} {next : Value → Program α}
    (h : ∀ v, Defers base (next v)) : Defers base (.make content next)
  | makeFunction {base : Bool} {α : Type} {label : Option String} {body : Expr}
    {next : Value → Program α} (hbody : ∀ args, Defers false (body.asFunction args))
    (h : ∀ v, Defers base (next v)) : Defers base (.makeFunction label body next)
  | makeLazy {base : Bool} {α : Type} {body : LazyBody} {next : Value → Program α}
    (hbody : Defers false body.program) (h : ∀ v, Defers base (next v)) :
    Defers base (.makeLazy body next)
  | log {base : Bool} {α : Type} {line : String} {next : Program α} (h : Defers base next) :
    Defers base (.log line next)
  | request {base : Bool} {α : Type} {r : Request} {next : Except Fault Value → Program α}
    (hr : r.Allowed base) (h : ∀ result, Defers base (next result)) : Defers base (.request r next)

namespace Program.Defers
variable {base : Bool} {α β : Type}

theorem bind {p : Program α} {k : α → Program β} (hp : p.Defers base)
    (hk : ∀ a, (k a).Defers base) : (p >>= k).Defers base := by
  induction hp with
  | done result =>
    cases result with
    | ok a => exact hk a
    | error f => exact .done _
  | ask _ ih => exact .ask fun a => ih a hk
  | make _ ih => exact .make fun v => ih v hk
  | makeFunction hbody _ _ ih => exact .makeFunction hbody fun v => ih v hk
  | makeLazy hbody _ _ ih => exact .makeLazy hbody fun v => ih v hk
  | log _ ih => exact .log (ih hk)
  | request hr _ ih => exact .request hr fun result => ih result hk

/-- Who calls no trait may call the base. -/
theorem mono {p : Program α} (hp : p.Defers false) : p.Defers base := by
  generalize hbase : false = base' at hp
  induction hp with
  | done result => exact .done result
  | ask _ ih => exact .ask fun a => ih a hbase
  | make _ ih => exact .make fun v => ih v hbase
  | makeFunction hbody _ _ ih => exact .makeFunction hbody fun v => ih v hbase
  | makeLazy hbody _ _ ih => exact .makeLazy hbody fun v => ih v hbase
  | log _ ih => exact .log (ih hbase)
  | @request _ _ r _ hr _ ih =>
    subst hbase
    refine .request ?_ fun result => ih result rfl
    cases r with
    | base => cases hr
    | _ => exact hr

end Program.Defers

theorem Program.closed_defers : Program.Closed (fun _ _ => True) fun _ p => p.Defers false where
  done result := .done result
  bind hp hk := hp.bind hk
  content v _ hk := .ask fun content? => hk content? fun _ _ _ => trivial
  fieldValue {_ _ _ v} _ _ := by
    cases v with
    | lazy id => exact .request trivial fun result => by cases result <;> exact .done _
    | _ => exact .done _

/-! ### Traits -/

/-- The bodies of a case call none but the base. -/
def Case.Defers : Case → Prop
  | .handler body => ∀ args, (body args).Defers true
  | .rules list => ∀ rule ∈ list.rules, ∀ args, (rule.handler args).Defers true

def Bottom.Defers : Bottom → Prop
  | .value _ => True
  | .compute body => ∀ args, (body args).Defers false

structure Layer.Defers (l : Layer) : Prop where
  cases : ∀ c ∈ l.cases, c.2.Defers
  memo : ∀ memo, l.memo? = some memo → memo.bottom.Defers

/-- Cases call none but their base, and bottoms none, in all of the chain. -/
def Trait.Defers (t : Trait) : Prop := ∀ l ∈ t.chain, l.Defers

theorem Trait.Defers.link {t u : Trait} (ht : t.Defers) (hlink : t.Link u) : u.Defers :=
  fun l hl => ht l (hlink.subset hl)

theorem Case.Defers.program {c : Case} (hc : c.Defers) (trait name : String) (args : List Value) :
    (c.program trait name args).Defers true := by
  cases c with
  | handler body => exact hc args
  | rules list =>
    refine Program.closed_defers.selected (fun hp hk => hp.mono.bind hk) args list.rules ?_
      fun rule hrule => hc rule hrule args
    exact .ask fun _ => .done _

/-! ### Objects -/

/-- What functions and lazies do calls no trait. -/
def Object.Defers : Object → Prop
  | .content _ => True
  | .function _ body => ∀ args, (body.asFunction args).Defers false
  | .lazy body => body.program.Defers false

def World.Defers (w : World) : Prop := ∀ id o, w.heap.object? id = some o → o.Defers

namespace World.Defers
variable {w : World}

theorem push (hw : w.Defers) {o : Object} (ho : o.Defers) : (w.push o).Defers := by
  intro id o' h
  rw [World.push, Heap.object?_push] at h
  split at h
  · cases h
    exact ho
  · exact hw id o' h

theorem reclaimed (hw : w.Defers) (since : ObjectId) : (w.reclaimed since).Defers := by
  intro id o h
  rw [World.object?_reclaimed] at h
  split at h
  · exact hw id o h
  · cases h

theorem constructed (hw : w.Defers) (v : Variant) (args : List Value) :
    (v.construct args w).2.Defers := by
  simp only [Variant.construct, Run.bind_apply, Run.lift_apply]
  cases v.positional args with
  | error f => exact hw
  | ok fields =>
    obtain ⟨registries, h | h⟩ := World.canonicalize_frame w v.registry v.tag fields
    · exact h ▸ hw
    · exact h ▸ hw.push trivial

end World.Defers

end OpenVariants

import OpenVariants.Proofs.Answers
import OpenVariants.Proofs.Pure
import Mathlib.Logic.Function.Iterate

/-! Evaluation, moment by moment.

`perform` says what a request comes to. What happens on the way, and which calls are active
then, is the run of a machine: a moment is what is being evaluated, what waits for its
result, and the world. Each moment leads to the next (`Moment.next`), and the run from a
moment comes to the answer that evaluation gives, with what waited before still waiting
(`Moment.answers`). -/
namespace OpenVariants

/-! ### The machine -/

/-- What waits for a result. -/
inductive Pending where
  /-- The rest of a body; `n` bodies may be nested in it. -/
  | body (n : Nat) (frame : Option Frame) (next : Except Fault Value → Program Value)
  /-- An active call, and whether a segment began with it. -/
  | call (t : Trait) (args : List Value) (segment : Bool)
  /-- A miss of a memo table that waits for the bottom. -/
  | bottom (n : Nat) (memo : Memo) (t : Trait) (receiver : Value) (args : List Value)
    (path : List Key) (since : ObjectId)
  /-- A miss of a memo table that waits for the case. -/
  | case (memo : Memo) (path : List Key)

/-- What is being evaluated; `n` bodies may be nested in it. -/
inductive Control where
  | run (n : Nat) (frame : Option Frame) (p : Program Value)
  | request (n : Nat) (frame : Option Frame) (r : Request)
  | call (n : Nat) (t : Trait) (args : List Value)
  /-- What a call of a memoized trait begins with. -/
  | lookUp (n : Nat) (memo : Memo) (t : Trait) (receiver : Value) (args : List Value)
  | dispatch (n : Nat) (t : Trait) (receiver : Value) (args : List Value)
  /-- Nothing any more. -/
  | answer (result : Except Stop Value)

structure Moment where
  control : Control
  /-- What waits, last one first. -/
  stack : List Pending
  world : World

/-- The nesting after a call, given what its body left and whether a segment began with it. -/
def Nesting.outside (segment : Bool) (n : Nesting) : Nesting :=
  if segment then n.resume.leave else n.leave

namespace Moment

/-- A moment with a change of the world that makes a value for the rest of a program. -/
def making (n : Nat) (frame : Option Frame) (next : Value → Program Value) (stack : List Pending)
    (made : Value × World) : Moment :=
  ⟨.run n frame (next made.1), stack, made.2⟩

/-- A step of a program. -/
def stepped (n : Nat) (frame : Option Frame) (stack : List Pending) (w : World) :
    Program Value → Moment
  | .done result => ⟨.answer (result.mapError .fault), stack, w⟩
  | .ask q next => ⟨.run n frame (next (w.answer frame q)), stack, w⟩
  | .make content next => making n frame next stack (w.newContent content)
  | .makeFunction label body next => making n frame next stack (w.newFunction label body)
  | .makeLazy body next => making n frame next stack (w.newLazy body)
  | .log line next => ⟨.run n frame next, stack, {w with log := line :: w.log}⟩
  | .request r next => ⟨.request n frame r, .body n frame next :: stack, w⟩

/-- What a request begins with when at least one body may be nested in it. -/
def requested (n : Nat) (frame : Option Frame) (w : World) : Request → Control
  | .call id args =>
    match w.traits[id]? with
    | some t => .call n t args
    | none => .answer (.ok .null)
  | .recur args =>
    match frame with
    | some f => .call n f.invoked args
    | none => .answer (.error (.fault (.program .noDispatch)))
  | .base args =>
    match frame with
    | some f =>
      match f.owner.base? with
      | some base => .call n base args
      | none => .answer (.error (.fault (.dispatch (.noBase f.owner.name))))
    | none => .answer (.error (.fault (.program .noDispatch)))
  | .force id =>
    match w.heap.object? id with
    | some (.lazy body) => .run n none body.program
    | _ => .answer (.ok .null)
  | .apply id args =>
    match w.heap.object? id with
    | some (.function _ body) => .run n none (body.asFunction args)
    | _ => .answer (.ok .null)
  | .read id index => .run n none (Program.fieldAt id index)
  | .unify p v => .run n none do return .bool (← p.matching v)
  | .construct v args => .answer ((v.construct args w).1)

/-- What a request does to the world at once. -/
def constructed (w : World) : Request → World
  | .construct v args => (v.construct args w).2
  | _ => w

/-- The body of a call: a look into the memo table if there is one. -/
def body (n : Nat) (t : Trait) (receiver : Value) (args : List Value) : Control :=
  match t.layer.memo? with
  | some memo => .lookUp n memo t receiver args
  | none => .dispatch n t receiver args

/-- A call that starts, unless as many are active as the trait allows. -/
def called (n : Nat) (t : Trait) (args : List Value) (stack : List Pending) (w : World) : Moment :=
  match args with
  | [] => ⟨.answer (.error (.fault (.dispatch (.missingReceiver t.name)))), stack, w⟩
  | receiver :: _ =>
    if t.layer.maxDepth ≤ w.nesting.current then
      ⟨.answer (.error (.fault (.dispatch (.recursionLimit t.name t.layer.maxDepth)))), stack, w⟩
    else
      ⟨body n t receiver args, .call t args w.nesting.enter.atBoundary :: stack,
        {w with nesting := w.nesting.inside}⟩

/-- The evaluation of a bottom. -/
def bottomed (n : Nat) (args : List Value) : Bottom → Control
  | .value v => .answer (.ok v)
  | .compute body => .run n none (body args)

/-- A look into a memo table, with a miss if nothing is there. -/
def lookedUp (n : Nat) (memo : Memo) (t : Trait) (receiver : Value) (args : List Value)
    (stack : List Pending) (w : World) : Moment :=
  match Key.path args with
  | .error f => ⟨.answer (.error (.fault f)), stack, w⟩
  | .ok path =>
    match w.stored? memo.store path with
    | some hit => ⟨.answer (.ok hit), stack, w⟩
    | none =>
      ⟨bottomed n args memo.bottom, .bottom n memo t receiver args path w.nextObject :: stack, w⟩

/-- The case that a dispatch runs. -/
def dispatched (n : Nat) (t : Trait) (receiver : Value) (args : List Value) (w : World) : Control :=
  match t.resolve? (w.receiver receiver).caseName with
  | some found => .run n (some ⟨t, found.owner⟩) (found.case.program t.name found.name args)
  | none => .answer (.error (.fault (.dispatch (.noCase t.name (w.receiver receiver)))))

/-- What waited goes on with a result. -/
def resumed (result : Except Stop Value) (stack : List Pending) (w : World) : Pending → Moment
  | .body n frame next =>
    match result with
    | .ok v => ⟨.run n frame (next (.ok v)), stack, w⟩
    | .error (.fault f) => ⟨.run n frame (next (.error f)), stack, w⟩
    | .error .exhausted => ⟨.answer (.error .exhausted), stack, w⟩
  | .call _ _ segment => ⟨.answer result, stack, {w with nesting := w.nesting.outside segment}⟩
  | .bottom n memo t receiver args path since =>
    match result with
    | .ok b =>
      ⟨.dispatch n t receiver args, .case memo path :: stack,
        (w.storeSet memo.store path b).reclaimed since⟩
    | .error stop => ⟨.answer (.error stop), stack, w⟩
  | .case memo path =>
    match result with
    | .ok v => ⟨.answer (.ok v), stack, w.storeSet memo.store path v⟩
    | .error stop => ⟨.answer (.error stop), stack, w.storeErase memo.store path⟩

/-- The next moment. When nothing waits for an answer, it stays. -/
def next (m : Moment) : Moment :=
  match m.control with
  | .run n frame p => stepped n frame m.stack m.world p
  | .request 0 _ _ => {m with control := .answer (.error .exhausted)}
  | .request (n + 1) frame r => ⟨requested n frame m.world r, m.stack, constructed m.world r⟩
  | .call n t args => called n t args m.stack m.world
  | .lookUp n memo t receiver args => lookedUp n memo t receiver args m.stack m.world
  | .dispatch n t receiver args => {m with control := dispatched n t receiver args m.world}
  | .answer result =>
    match m.stack with
    | [] => m
    | p :: stack => resumed result stack m.world p

/-- The moment after a number of steps. -/
def after (k : Nat) (m : Moment) : Moment := next^[k] m

@[simp] theorem after_zero (m : Moment) : m.after 0 = m := rfl

theorem after_succ (k : Nat) (m : Moment) : m.after (k + 1) = m.next.after k := rfl

theorem after_succ' (k : Nat) (m : Moment) : m.after (k + 1) = (m.after k).next :=
  Function.iterate_succ_apply' next k m

theorem after_add (j k : Nat) (m : Moment) : m.after (j + k) = (m.after j).after k := by
  rw [after, Nat.add_comm, Function.iterate_add_apply]
  rfl

/-- What every step preserves every run preserves. -/
theorem after_of_next {P : Moment → Prop} (hnext : ∀ m, P m → P m.next) {m : Moment} (hm : P m)
    (k : Nat) : P (m.after k) := Function.Iterate.rec P hm hnext k

/-- One moment comes after the other. -/
def Leads (m m' : Moment) : Prop := ∃ k, m.after k = m'

theorem Leads.refl (m : Moment) : m.Leads m := ⟨0, rfl⟩

theorem Leads.trans {a b c : Moment} (hab : a.Leads b) (hbc : b.Leads c) : a.Leads c := by
  obtain ⟨j, rfl⟩ := hab
  obtain ⟨k, rfl⟩ := hbc
  exact ⟨j + k, a.after_add j k⟩

theorem Leads.of_next {m m' : Moment} (h : m.next.Leads m') : m.Leads m' := by
  obtain ⟨k, rfl⟩ := h
  exact ⟨k + 1, rfl⟩

/-- A run that begins with a call outside of all others. -/
def outermost (n : Nat) (t : Trait) (args : List Value) (w : World) (k : Nat) : Moment :=
  after k ⟨.call n t args, [], w⟩

end Moment

/-! ### What a run comes to -/

/-- What a control comes to. -/
def Control.eval : Control → Run Value
  | .run n frame p => p.run (perform n) frame
  | .request n frame r => perform n frame r
  | .call n t args => t.call (perform n) args
  | .lookUp n memo t receiver args => memo.call (perform n) t receiver args
  | .dispatch n t receiver args => t.dispatch (perform n) receiver args
  | .answer result => fun w => (result, w)

/-- From a control, whatever waits, the machine comes to what evaluation gives. -/
def Control.Answered (c : Control) : Prop :=
  ∀ stack w, Moment.Leads ⟨c, stack, w⟩ ⟨.answer (c.eval w).1, stack, (c.eval w).2⟩

namespace Moment

/-- A moment that leads to another one, with the same stack, that is answered. -/
theorem leads_of_eval {c c' : Control} {stack : List Pending} {w w' : World}
    (hnext : Leads ⟨c, stack, w⟩ ⟨c', stack, w'⟩) (hc : c'.Answered) (heval : c.eval w = c'.eval w') :
    Leads ⟨c, stack, w⟩ ⟨.answer (c.eval w).1, stack, (c.eval w).2⟩ := by
  rw [heval]
  exact hnext.trans (hc stack w')

theorem answered_answer (result : Except Stop Value) : (Control.answer result).Answered :=
  fun _ _ => .refl _

theorem lift_eq (result : Except Fault α) (w : World) :
    Run.lift result w = (result.mapError .fault, w) := by
  cases result <;> rfl

/-- A body is answered if its requests are. -/
theorem answered_run {n : Nat} {frame : Option Frame}
    (hrequest : ∀ r, (Control.request n frame r).Answered) (p : Program Value) :
    (Control.run n frame p).Answered := by
  induction p with
  | done result =>
    intro stack w
    refine .of_next ⟨0, ?_⟩
    simp only [after_zero, next, stepped, Control.eval, Program.run, lift_eq]
  | ask q next ih | make content next ih | makeFunction label body next ih
  | makeLazy body next ih => exact fun stack w => leads_of_eval (.of_next (.refl _)) (ih _) rfl
  | log line next ih => exact fun stack w => leads_of_eval (.of_next (.refl _)) ih rfl
  | request r next ih =>
    intro stack w
    have hr := (Leads.of_next (m := ⟨.run n frame (.request r next), stack, w⟩) (.refl _)).trans
      (hrequest r (.body n frame next :: stack) w)
    simp only [Control.eval, Program.run] at hr ⊢
    -- Without the resources to go on the body stops too; else the rest of it runs.
    rcases heq : perform n frame r w with ⟨(_ | f) | v, w'⟩ <;> rw [heq] at hr
    · exact hr.trans (.of_next (ih (.error _) stack w'))
    · exact hr.trans (.of_next (.refl _))
    · exact hr.trans (.of_next (ih (.ok v) stack w'))

theorem answered_dispatch {n : Nat} (hrequest : ∀ frame r, (Control.request n frame r).Answered)
    (t : Trait) (receiver : Value) (args : List Value) :
    (Control.dispatch n t receiver args).Answered := by
  intro stack w
  have heval : t.dispatch (perform n) receiver args w =
      (dispatched n t receiver args w).eval w := by
    rw [Trait.dispatch_eq]
    unfold dispatched
    cases t.resolve? (w.receiver receiver).caseName with
    | none => rfl
    | some found => exact congrFun (found.case.run_program n ⟨t, found.owner⟩ found.name args).symm w
  refine leads_of_eval (.of_next (.refl _)) ?_ heval
  unfold dispatched
  split
  · exact answered_run (hrequest _) _
  · exact answered_answer _

theorem answered_bottom {n : Nat} (hrequest : ∀ frame r, (Control.request n frame r).Answered)
    (args : List Value) (b : Bottom) : (bottomed n args b).Answered := by
  cases b with
  | value v => exact answered_answer _
  | compute body => exact answered_run (hrequest _) _

theorem eval_bottomed (n : Nat) (args : List Value) (b : Bottom) :
    (bottomed n args b).eval = b.run (perform n) args := by
  cases b <;> rfl

/-- A miss of a memo table is answered if its bottom and its case are. -/
theorem answered_lookUp {n : Nat} (hrequest : ∀ frame r, (Control.request n frame r).Answered)
    (memo : Memo) (t : Trait) (receiver : Value) (args : List Value) :
    (Control.lookUp n memo t receiver args).Answered := by
  intro stack w
  have hnext : Leads _ _ := .of_next
    (.refl (lookedUp n memo t receiver args stack w))
    (m := ⟨.lookUp n memo t receiver args, stack, w⟩)
  simp only [Control.eval, Memo.call_eq]
  unfold lookedUp at hnext
  cases hpath : Key.path args with
  | error f => simpa only [hpath] using hnext
  | ok path =>
    simp only [hpath] at hnext ⊢
    cases hstored : w.stored? memo.store path with
    | some hit => simpa only [hstored] using hnext
    | none =>
      simp only [hstored] at hnext ⊢
      refine hnext.trans ?_
      have hbottom := answered_bottom hrequest args memo.bottom
        (.bottom n memo t receiver args path w.nextObject :: stack) w
      rw [eval_bottomed] at hbottom
      rcases heq : memo.bottom.run (perform n) args w with ⟨stop | b, w₁⟩ <;>
        rw [heq] at hbottom
      · rw [Memo.fill_of_bottom heq]
        exact hbottom.trans (.of_next (.refl _))
      · have hcase := answered_dispatch hrequest t receiver args (.case memo path :: stack)
          ((w₁.storeSet memo.store path b).reclaimed w.nextObject)
        refine hbottom.trans (.of_next (hcase.trans (.of_next ?_)))
        simp only [Control.eval]
        rcases hd : t.dispatch (perform n) receiver args
          ((w₁.storeSet memo.store path b).reclaimed w.nextObject) with ⟨stop | v, w₂⟩
        · rw [Memo.fill_error heq hd]
          exact .refl _
        · rw [Memo.fill_ok heq hd]
          exact .refl _

/-- What a call does to the world, in terms of what its body does. -/
theorem guarded_apply (t : Trait) (body : Run α) (w : World) :
    t.guarded body w =
      if t.layer.maxDepth ≤ w.nesting.current then
        (.error (.fault (.dispatch (.recursionLimit t.name t.layer.maxDepth))), w)
      else
        let (r, w') := body {w with nesting := w.nesting.inside}
        (r, {w' with nesting := w'.nesting.outside w.nesting.enter.atBoundary}) := by
  unfold Trait.guarded Run.inSegment Nesting.inside
  simp only [Run.onFreshStack_eq]
  split
  · rfl
  · cases w.nesting.enter.atBoundary <;> rfl

theorem answered_body {n : Nat} (hrequest : ∀ frame r, (Control.request n frame r).Answered)
    (t : Trait) (receiver : Value) (args : List Value) : (body n t receiver args).Answered := by
  unfold body
  split
  · exact answered_lookUp hrequest _ _ _ _
  · exact answered_dispatch hrequest _ _ _

theorem call_cons (n : Nat) (t : Trait) (receiver : Value) (rest : List Value) :
    t.call (perform n) (receiver :: rest) =
      t.guarded (body n t receiver (receiver :: rest)).eval := by
  simp only [Trait.call, body]
  cases t.layer.memo? <;> rfl

theorem answered_call {n : Nat} (hrequest : ∀ frame r, (Control.request n frame r).Answered)
    (t : Trait) (args : List Value) : (Control.call n t args).Answered := by
  intro stack w
  have hnext : Leads _ _ := .of_next (.refl (called n t args stack w))
    (m := ⟨.call n t args, stack, w⟩)
  cases args with
  | nil => exact hnext
  | cons receiver rest =>
    simp only [Control.eval, call_cons, guarded_apply]
    simp only [called] at hnext
    by_cases hroom : t.layer.maxDepth ≤ w.nesting.current
    · rw [if_pos hroom] at hnext ⊢
      exact hnext
    · rw [if_neg hroom] at hnext ⊢
      exact hnext.trans ((answered_body hrequest t receiver _ _ _).trans (.of_next (.refl _)))

theorem eval_requested (n : Nat) (frame : Option Frame) (r : Request) (w : World) :
    perform (n + 1) frame r w = (requested n frame w r).eval (constructed w r) := by
  cases r with
  | call id args =>
    simp only [perform, answering, Run.bind_apply, Run.get_apply, requested]
    cases w.traits[id]? <;> rfl
  | recur args => cases frame <;> rfl
  | base args =>
    cases frame with
    | none => rfl
    | some f =>
      simp only [perform, answering, requested]
      cases f.owner.base? <;> rfl
  | force id =>
    simp only [perform, answering, Run.bind_apply, Run.get_apply, requested]
    rcases w.heap.object? id with _ | (_ | _ | _) <;> rfl
  | apply id args =>
    simp only [perform, answering, Run.bind_apply, Run.get_apply, requested]
    rcases w.heap.object? id with _ | (_ | _ | _) <;> rfl
  | read id index => exact congrFun (run_fieldAt (forcesAlike_perform n none) id index).symm w
  | unify p v =>
    simp only [perform, answering, requested, Control.eval, Program.run_bind_eq,
      run_matching (forcesAlike_perform n none)]
    rfl
  | construct v args => rfl

/-- A request is answered if those of the bodies nested in it are. -/
theorem answered_request {n : Nat} (hrequest : ∀ frame r, (Control.request n frame r).Answered)
    (frame : Option Frame) (r : Request) : (Control.request (n + 1) frame r).Answered := by
  intro stack w
  refine leads_of_eval (.of_next (.refl _)) ?_ (eval_requested n frame r w)
  cases r with
  | call id args =>
    simp only [requested]
    split
    · exact answered_call hrequest _ _
    · exact answered_answer _
  | recur args =>
    cases frame with
    | none => exact answered_answer _
    | some f => exact answered_call hrequest _ _
  | base args =>
    cases frame with
    | none => exact answered_answer _
    | some f =>
      simp only [requested]
      split
      · exact answered_call hrequest _ _
      · exact answered_answer _
  | force id | apply id args =>
    simp only [requested]
    split
    · exact answered_run (hrequest none) _
    · exact answered_answer _
  | read id index | unify p v => exact answered_run (hrequest none) _
  | construct v args => exact answered_answer _

theorem answered_all (n : Nat) (frame : Option Frame) (r : Request) :
    (Control.request n frame r).Answered := by
  induction n generalizing frame r with
  | zero => exact fun stack w => .of_next (.refl _)
  | succ n ih => exact answered_request ih frame r

/-- The run from any moment comes to what evaluation gives, and what waited still waits. -/
theorem answers (c : Control) : c.Answered := by
  cases c with
  | run n frame p => exact answered_run (answered_all n frame) p
  | request n frame r => exact answered_all n frame r
  | call n t args => exact answered_call (answered_all n) t args
  | lookUp n memo t receiver args => exact answered_lookUp (answered_all n) memo t receiver args
  | dispatch n t receiver args => exact answered_dispatch (answered_all n) t receiver args
  | answer result => exact answered_answer result

/-! ### Ends -/

/-- The moment with an answer that nothing waits for. -/
def ended (result : Except Stop Value) (w : World) : Moment := ⟨.answer result, [], w⟩

theorem after_ended (k : Nat) (result : Except Stop Value) (w : World) :
    (ended result w).after k = ended result w :=
  Function.iterate_fixed rfl k

/-- What holds up to the end of a run holds ever after. -/
theorem forall_after {P : Moment → Prop} {m : Moment} {j : Nat} {result : Except Stop Value}
    {w : World} (hend : m.after j = ended result w) (h : ∀ k ≤ j, P (m.after k)) (k : Nat) :
    P (m.after k) := by
  rcases Nat.le_total k j with hk | hk
  · exact h k hk
  · obtain ⟨i, rfl⟩ := Nat.exists_eq_add_of_le hk
    rw [after_add, hend, after_ended, ← hend]
    exact h j (Nat.le_refl j)

/-- A run has at most one end. -/
theorem Leads.unique {m : Moment} {r r' : Except Stop Value} {w w' : World}
    (h : m.Leads (ended r w)) (h' : m.Leads (ended r' w')) : r = r' ∧ w = w' := by
  obtain ⟨j, hj⟩ := h
  obtain ⟨k, hk⟩ := h'
  have heq : ended r w = ended r' w' := by
    rw [← after_ended k r w, ← hj, ← after_add, Nat.add_comm, after_add, hk, after_ended]
  cases heq
  exact ⟨rfl, rfl⟩

end Moment

/-! ### What a step changes -/

/-- What a body does by itself: objects are made, and stores, traits and the nesting of
calls are as they were. -/
structure World.Quiet (w w' : World) : Prop where
  stores : w'.stores = w.stores
  traits : w'.traits = w.traits
  nesting : w'.nesting = w.nesting
  extends_ : w.heap.Extends w'.heap
  before : w.heap.Before w'.heap

namespace World

theorem Quiet.refl (w : World) : w.Quiet w := ⟨rfl, rfl, rfl, .refl _, .refl _⟩

theorem quiet_log (w : World) (lines : List String) : w.Quiet {w with log := lines} :=
  ⟨rfl, rfl, rfl, .refl _, .refl _⟩

theorem quiet_push (w : World) (o : Object) : w.Quiet (w.push o) :=
  ⟨rfl, rfl, rfl, Heap.extends_push _ o, Heap.before_push _ o⟩

theorem quiet_canonicalize (w : World) (r : RegistryId) (tag : Tag) (fields : List Value) :
    w.Quiet (w.canonicalize r tag fields).2 := by
  obtain ⟨registries, h | h⟩ := canonicalize_frame w r tag fields <;> rw [h]
  · exact ⟨rfl, rfl, rfl, .refl _, .refl _⟩
  · exact ⟨rfl, rfl, rfl, Heap.extends_push _ _, Heap.before_push _ _⟩

theorem nesting_reclaimed (w : World) (since : ObjectId) :
    (w.reclaimed since).nesting = w.nesting := by
  unfold reclaimed
  split <;> rfl

theorem traits_reclaimed (w : World) (since : ObjectId) :
    (w.reclaimed since).traits = w.traits := by
  unfold reclaimed
  split <;> rfl

end World

namespace Moment

theorem quiet_constructed (w : World) (r : Request) : w.Quiet (constructed w r) := by
  cases r with
  | construct v args =>
    simp only [constructed, Variant.construct, Run.bind_apply, Run.lift_apply]
    cases v.positional args with
    | error f => exact .refl w
    | ok fields => exact w.quiet_canonicalize _ _ _
  | _ => exact .refl w

/-- All that a step can do to what waits and to the world. -/
inductive Change : Moment → Moment → Prop
  /-- A step of a body, or an answer without one. -/
  | quiet {c c' : Control} {stack : List Pending} {w w' : World} (hq : w.Quiet w') :
    Change ⟨c, stack, w⟩ ⟨c', stack, w'⟩
  /-- A body waits for what it requests. -/
  | wait {n : Nat} {frame : Option Frame} {r : Request} {next : Except Fault Value → Program Value}
    {stack : List Pending} {w : World} :
    Change ⟨.run n frame (.request r next), stack, w⟩
      ⟨.request n frame r, .body n frame next :: stack, w⟩
  | enter {n : Nat} {t : Trait} {receiver : Value} {rest : List Value} {stack : List Pending}
    {w : World} (hroom : w.nesting.current < t.layer.maxDepth) :
    Change ⟨.call n t (receiver :: rest), stack, w⟩
      ⟨body n t receiver (receiver :: rest),
        .call t (receiver :: rest) w.nesting.enter.atBoundary :: stack,
        {w with nesting := w.nesting.inside}⟩
  | miss {n : Nat} {memo : Memo} {t : Trait} {receiver : Value} {args : List Value}
    {path : List Key} {stack : List Pending} {w : World} (hpath : Key.path args = .ok path)
    (hmiss : w.stored? memo.store path = none) :
    Change ⟨.lookUp n memo t receiver args, stack, w⟩
      ⟨bottomed n args memo.bottom,
        .bottom n memo t receiver args path w.nextObject :: stack, w⟩
  /-- A body goes on, or stops with what it requested. -/
  | resume {n : Nat} {frame : Option Frame} {next : Except Fault Value → Program Value}
    {result : Except Stop Value} {c : Control} {stack : List Pending} {w : World} :
    Change ⟨.answer result, .body n frame next :: stack, w⟩ ⟨c, stack, w⟩
  | leave {t : Trait} {args : List Value} {segment : Bool} {result : Except Stop Value}
    {stack : List Pending} {w : World} :
    Change ⟨.answer result, .call t args segment :: stack, w⟩
      ⟨.answer result, stack, {w with nesting := w.nesting.outside segment}⟩
  | install {n : Nat} {memo : Memo} {t : Trait} {receiver : Value} {args : List Value}
    {path : List Key} {since : ObjectId} {b : Value} {stack : List Pending} {w : World} :
    Change ⟨.answer (.ok b), .bottom n memo t receiver args path since :: stack, w⟩
      ⟨.dispatch n t receiver args, .case memo path :: stack,
        (w.storeSet memo.store path b).reclaimed since⟩
  /-- A miss without a bottom. -/
  | abandon {n : Nat} {memo : Memo} {t : Trait} {receiver : Value} {args : List Value}
    {path : List Key} {since : ObjectId} {stop : Stop} {stack : List Pending} {w : World} :
    Change ⟨.answer (.error stop), .bottom n memo t receiver args path since :: stack, w⟩
      ⟨.answer (.error stop), stack, w⟩
  | result {memo : Memo} {path : List Key} {v : Value} {stack : List Pending} {w : World} :
    Change ⟨.answer (.ok v), .case memo path :: stack, w⟩
      ⟨.answer (.ok v), stack, w.storeSet memo.store path v⟩
  | failure {memo : Memo} {path : List Key} {stop : Stop} {stack : List Pending} {w : World} :
    Change ⟨.answer (.error stop), .case memo path :: stack, w⟩
      ⟨.answer (.error stop), stack, w.storeErase memo.store path⟩

theorem change (m : Moment) : m.Change m.next := by
  obtain ⟨c, stack, w⟩ := m
  cases c with
  | run n frame p =>
    cases p with
    | done result => exact .quiet (.refl w)
    | ask q next => exact .quiet (.refl w)
    | make content next | makeFunction label body next | makeLazy body next =>
      exact .quiet (w.quiet_push _)
    | log line next => exact .quiet (w.quiet_log _)
    | request r next => exact .wait
  | request n frame r =>
    cases n with
    | zero => exact .quiet (.refl w)
    | succ n => exact .quiet (quiet_constructed w r)
  | call n t args =>
    cases args with
    | nil => exact .quiet (.refl w)
    | cons receiver rest =>
      simp only [next, called]
      split
      · exact .quiet (.refl w)
      · next hroom => exact .enter (Nat.lt_of_not_le hroom)
  | lookUp n memo t receiver args =>
    simp only [next, lookedUp]
    split
    · exact .quiet (.refl w)
    · next path hpath =>
      split
      · exact .quiet (.refl w)
      · next hmiss => exact .miss hpath hmiss
  | dispatch n t receiver args => exact .quiet (.refl w)
  | answer result =>
    cases stack with
    | nil => exact .quiet (.refl w)
    | cons p stack =>
      cases p with
      | body n frame next => rcases result with (_ | _) | _ <;> exact .resume
      | call t args segment => exact .leave
      | bottom n memo t receiver args path since =>
        cases result with
        | ok b => exact .install
        | error stop => exact .abandon
      | case memo path =>
        cases result with
        | ok v => exact .result
        | error stop => exact .failure

/-! ### Where errors come from -/

/-- An error that something comes to comes of an error before, of the bound, or of a fault;
and a fault that refuses a call comes of a body, or of a call for which there is no room. -/
theorem next_error {m : Moment} {stop : Stop} (h : m.next.control = .answer (.error stop)) :
    m.control = .answer (.error stop) ∨
    (stop = .exhausted ∧ ∃ frame r, m.control = .request 0 frame r) ∨
    ∃ f, stop = .fault f ∧ ∀ name limit, f = .dispatch (.recursionLimit name limit) →
      (∃ n frame, m.control = .run n frame (.done (.error f))) ∨
      ∃ n t receiver rest, m.control = .call n t (receiver :: rest) ∧
        t.layer.maxDepth ≤ m.world.nesting.current := by
  obtain ⟨c, stack, w⟩ := m
  cases c with
  | run n frame p =>
    cases p with
    | done result =>
      cases result with
      | ok v => cases h
      | error f =>
        cases h
        exact .inr (.inr ⟨f, rfl, fun _ _ _ => .inl ⟨n, frame, rfl⟩⟩)
    | _ => cases h
  | request n frame r =>
    cases n with
    | zero =>
      cases h
      exact .inr (.inl ⟨rfl, frame, r, rfl⟩)
    | succ n =>
      refine .inr (.inr ?_)
      cases r with
      | construct v args =>
        by_cases harity : args.length = v.tag.arity
        · simp [next, requested, Variant.construct, Variant.positional, harity] at h
        · simp only [next, requested, Variant.construct, Variant.positional, harity] at h
          cases h
          exact ⟨_, rfl, fun _ _ hf => by cases hf⟩
      | _ =>
        simp only [next, requested] at h
        repeat' split at h
        all_goals cases h
        all_goals exact ⟨_, rfl, fun _ _ hf => by cases hf⟩
  | call n t args =>
    refine .inr (.inr ?_)
    cases args with
    | nil =>
      cases h
      exact ⟨_, rfl, fun _ _ hf => by cases hf⟩
    | cons receiver rest =>
      by_cases hfull : t.layer.maxDepth ≤ w.nesting.current
      · simp only [next, called, if_pos hfull] at h
        cases h
        exact ⟨_, rfl, fun _ _ _ => .inr ⟨n, t, receiver, rest, rfl, hfull⟩⟩
      · simp only [next, called, if_neg hfull, body] at h
        split at h <;> cases h
  | lookUp n memo t receiver args =>
    refine .inr (.inr ?_)
    cases args with
    | nil =>
      cases h
      exact ⟨_, rfl, fun _ _ hf => by cases hf⟩
    | cons arg args =>
      have hpath : Key.path (arg :: args) = .ok ((arg :: args).map Key.ofValue) := rfl
      simp only [next, lookedUp, hpath, bottomed] at h
      repeat' split at h
      all_goals cases h
  | dispatch n t receiver args =>
    refine .inr (.inr ?_)
    simp only [next, dispatched] at h
    split at h <;> cases h
    exact ⟨_, rfl, fun _ _ hf => by cases hf⟩
  | answer result =>
    left
    cases stack with
    | nil => exact h
    | cons p stack =>
      simp only [next, resumed] at h
      repeat' split at h
      all_goals first | exact h | cases h
end Moment

end OpenVariants

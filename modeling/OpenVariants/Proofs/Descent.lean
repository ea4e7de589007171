import Mathlib.Tactic.IntervalCases
import OpenVariants.Proofs.Calls
import OpenVariants.Proofs.Deference
import OpenVariants.Proofs.Depth
import OpenVariants.Proofs.Precedence

/-! Calls of the base descend.

A case that calls the base of its trait goes on further out in the chain, whatever the
receiver of that call is: the search for a case starts with the base of the trait that has the
running one. So where cases call nothing else (`Trait.Defers`), those that run at one time
stand in the order of the chain, no two of one trait, and as many calls are active as there
are links at most. Then nothing but what bodies do by themselves can keep a call from ending
(`Trait.Defers.descends`). -/
namespace OpenVariants

/-- The trait is one that the other one overrides. -/
def Trait.Further (t u : Trait) : Prop := u.chain <:+ t.bases

namespace Trait

theorem Further.ne {t u : Trait} (h : t.Further u) : t ≠ u := by
  rintro rfl
  exact Nat.lt_irrefl _ (Nat.lt_of_lt_of_le (Nat.lt_succ_self _) h.length_le)

theorem further_base {t u : Trait} (h : t.base? = some u) : u.chain = t.bases := by
  unfold base? at h
  split at h
  · cases h
  · next layer bases hbases =>
    cases h
    exact hbases.symm

end Trait

/-! ### What waits while calls descend -/

/-- The calls in progress of the cases that wait, innermost first. -/
def waiting : List Pending → List Frame
  | [] => []
  | .body _ (some f) _ :: rest => f :: waiting rest
  | _ :: rest => waiting rest

/-- How many bodies wait. -/
def bodies : List Pending → Nat
  | [] => 0
  | .body .. :: rest => bodies rest + 1
  | _ :: rest => bodies rest

/-- How many bodies wait within the innermost call. -/
def bodiesWithin : List Pending → Nat
  | [] | .call .. :: _ => 0
  | .body .. :: rest => bodiesWithin rest + 1
  | _ :: rest => bodiesWithin rest

/-- What comes next on a stack: a call, the case of a call, or something that calls no trait. -/
inductive Stage where
  | calling | inside | aside
  deriving DecidableEq

/-- Where a body runs: a case within its call, any other body aside. -/
inductive Placed : Stage → List Layer → Option Frame → Prop
  | inside {f : Frame} {left : List Layer} (hf : f.owner.chain <:+ left) :
    Placed .inside left (some f)
  | aside {left : List Layer} : Placed .aside left none

/-- Calls that descend: the links of the chain that are left, of what may be called or of the
trait that was called. There is room for `n` bodies in all, and each of those that wait knows
for how many more. -/
inductive Descent (t : Trait) (n : Nat) : Stage → List Layer → List Pending → Prop
  | nil : Descent t n .calling t.chain []
  | call {u : Trait} {args : List Value} {segment : Bool} {left : List Layer} {stack : List Pending}
    (hu : u.chain <:+ left) (h : Descent t n .calling left stack) :
    Descent t n .inside u.chain (.call u args segment :: stack)
  | bottom {k : Nat} {memo : Memo} {u : Trait} {receiver : Value} {args : List Value}
    {path : List Key} {since : ObjectId} {left : List Layer} {stack : List Pending}
    (hu : u.chain <:+ left) (hk : k + bodies stack = n) (h : Descent t n .inside left stack) :
    Descent t n .aside left (.bottom k memo u receiver args path since :: stack)
  | case {memo : Memo} {path : List Key} {left : List Layer} {stack : List Pending}
    (h : Descent t n .inside left stack) : Descent t n .inside left (.case memo path :: stack)
  /-- A case waits for its base. -/
  | base {k : Nat} {f : Frame} {next : Except Fault Value → Program Value} {left : List Layer}
    {stack : List Pending} (hf : f.owner.chain <:+ left) (hnext : ∀ r, (next r).Defers true)
    (hk : k + bodies stack = n) (h : Descent t n .inside left stack) :
    Descent t n .calling f.owner.bases (.body k (some f) next :: stack)
  /-- A body waits for what is no call. -/
  | body {k : Nat} {frame : Option Frame} {next : Except Fault Value → Program Value} {stage : Stage}
    {left : List Layer} {stack : List Pending} (hplace : Placed stage left frame)
    (hnext : ∀ r, (next r).Defers frame.isSome) (hk : k + bodies stack = n)
    (h : Descent t n stage left stack) : Descent t n .aside left (.body k frame next :: stack)

namespace Descent
variable {t : Trait} {n : Nat} {stage : Stage} {left : List Layer} {stack : List Pending}

theorem left_suffix (h : Descent t n stage left stack) : left <:+ t.chain := by
  induction h with
  | nil => exact List.suffix_rfl
  | call hu _ ih => exact hu.trans ih
  | base hf _ _ _ ih => exact (List.suffix_cons _ _).trans (hf.trans ih)
  | bottom _ _ _ ih | case _ ih | body _ _ _ _ ih => exact ih

theorem left_ne_nil (h : Descent t n stage left stack) (hstage : stage ≠ .calling) : left ≠ [] := by
  induction h with
  | nil | base => exact absurd rfl hstage
  | call => exact List.cons_ne_nil _ _
  | bottom _ _ _ ih | case _ ih => exact ih nofun
  | body hplace _ _ _ ih => exact ih (by cases hplace <;> nofun)

/-- Each call takes a link of the chain at least. -/
theorem active_add_length_le (h : Descent t n stage left stack) :
    active stack + left.length ≤ t.chain.length + if stage = .calling then 0 else 1 := by
  induction h with
  | nil => simp [active]
  | call hu _ ih =>
    have hlength := hu.length_le
    simp only [active, if_true, reduceCtorEq, if_false] at ih ⊢
    omega
  | base hf _ _ h ih =>
    have hlength := hf.length_le
    simp only [Trait.chain, List.length_cons] at hlength
    simp only [active, if_true, reduceCtorEq, if_false] at ih ⊢
    omega
  | bottom _ _ _ ih | case _ ih => exact ih
  | body hplace _ _ _ ih => cases hplace <;> exact ih

theorem active_le (h : Descent t n stage left stack) : active stack ≤ t.chain.length := by
  have hle := h.active_add_length_le
  by_cases hstage : stage = .calling
  · rw [if_pos hstage] at hle
    omega
  · have hpos := List.length_pos_iff.mpr (h.left_ne_nil hstage)
    rw [if_neg hstage] at hle
    omega

/-- Within a call only what it waits for has bodies. -/
theorem bodiesWithin_eq_zero (h : Descent t n .inside left stack) : bodiesWithin stack = 0 := by
  generalize hstage : Stage.inside = stage at h
  induction h with
  | call => rfl
  | case _ ih => exact ih hstage
  | nil | bottom | base | body => cases hstage

/-- For every call but the innermost one a body waits, and the others wait within that. -/
theorem bodies_eq (h : Descent t n stage left stack) :
    (stage = .calling → bodies stack = active stack) ∧
      (stage ≠ .calling → bodies stack + 1 = active stack + bodiesWithin stack) := by
  induction h with
  | nil => exact ⟨fun _ => rfl, absurd rfl⟩
  | call _ _ ih => exact ⟨nofun, fun _ => congrArg (· + 1) (ih.1 rfl)⟩
  | bottom _ _ _ ih | case _ ih => exact ⟨nofun, fun _ => ih.2 nofun⟩
  | base _ _ _ h ih =>
    have hwaits := ih.2 nofun
    rw [h.bodiesWithin_eq_zero] at hwaits
    exact ⟨fun _ => hwaits, absurd rfl⟩
  | body hplace _ _ _ ih =>
    exact ⟨nofun, fun _ => congrArg (· + 1) (ih.2 (by cases hplace <;> nofun))⟩

/-- A case waits for all that wait, unless something runs aside. -/
theorem waiting_further (h : Descent t n stage left stack) :
    (stage ≠ .aside → ∀ f ∈ waiting stack, left <:+ f.owner.bases) ∧
      (waiting stack).Pairwise fun f g => g.owner.Further f.owner := by
  induction h with
  | nil => exact ⟨fun _ => List.forall_mem_nil _, .nil⟩
  | call hu _ ih => exact ⟨fun _ f hf => hu.trans (ih.1 nofun f hf), ih.2⟩
  | bottom _ _ _ ih => exact ⟨absurd rfl, ih.2⟩
  | case _ ih => exact ⟨fun _ => ih.1 nofun, ih.2⟩
  | @base k f next left stack hf _ _ _ ih =>
    have hfurther (g : Frame) (hg : g ∈ waiting stack) : g.owner.Further f.owner :=
      hf.trans (ih.1 nofun g hg)
    refine ⟨fun _ => List.forall_mem_cons.mpr ⟨List.suffix_rfl, fun g hg => ?_⟩,
      List.pairwise_cons.mpr ⟨hfurther, ih.2⟩⟩
    exact (List.suffix_cons _ _).trans (hfurther g hg)
  | body hplace _ _ _ ih =>
    refine ⟨absurd rfl, ?_⟩
    cases hplace with
    | inside hf => exact List.pairwise_cons.mpr ⟨fun g hg => hf.trans (ih.1 nofun g hg), ih.2⟩
    | aside => exact ih.2

end Descent

/-! ### Steps -/

/-- What is evaluated on top of a stack on which `waits` bodies wait. -/
inductive Control.Fits (n waits : Nat) : Stage → List Layer → Control → Prop
  | run {k : Nat} {frame : Option Frame} {p : Program Value} {stage : Stage} {left : List Layer}
    (hplace : Placed stage left frame) (hp : p.Defers frame.isSome) (hk : k + waits = n) :
    Fits n waits stage left (.run k frame p)
  | base {k : Nat} {f : Frame} {args : List Value} (hk : k + waits = n + 1) :
    Fits n waits .calling f.owner.bases (.request k (some f) (.base args))
  | request {k : Nat} {frame : Option Frame} {r : Request} {left : List Layer}
    (hr : r.Allowed false) (hk : k + waits = n + 1) : Fits n waits .aside left (.request k frame r)
  | call {k : Nat} {u : Trait} {args : List Value} {left : List Layer} (hu : u.chain <:+ left)
    (hk : k + waits = n) : Fits n waits .calling left (.call k u args)
  | lookUp {k : Nat} {memo : Memo} {u : Trait} {receiver : Value} {args : List Value}
    {left : List Layer} (hu : u.chain <:+ left) (hbottom : memo.bottom.Defers)
    (hk : k + waits = n) : Fits n waits .inside left (.lookUp k memo u receiver args)
  | dispatch {k : Nat} {u : Trait} {receiver : Value} {args : List Value} {left : List Layer}
    (hu : u.chain <:+ left) (hk : k + waits = n) :
    Fits n waits .inside left (.dispatch k u receiver args)
  | answer {result : Except Stop Value} {stage : Stage} {left : List Layer} :
    Fits n waits stage left (.answer result)

namespace Moment

/-- Calls descend from a trait, with room for `n` bodies. -/
structure Descends (t : Trait) (n : Nat) (m : Moment) : Prop where
  stack : ∃ stage left, Descent t n stage left m.stack ∧
    m.control.Fits n (bodies m.stack) stage left
  world : m.world.Defers

section Steps
variable {t : Trait} {n : Nat} {stage : Stage} {left : List Layer} {stack : List Pending} {w : World}

theorem descends_stepped {k : Nat} {frame : Option Frame} {p : Program Value}
    (hstack : Descent t n stage left stack) (hw : w.Defers) (hplace : Placed stage left frame)
    (hp : p.Defers frame.isSome) (hk : k + bodies stack = n) :
    Descends t n (stepped k frame stack w p) := by
  have hwait : k + (bodies stack + 1) = n + 1 := congrArg (· + 1) hk
  cases hp with
  | done => exact ⟨⟨_, _, hstack, .answer⟩, hw⟩
  | ask h => exact ⟨⟨_, _, hstack, .run hplace (h _) hk⟩, hw⟩
  | make h => exact ⟨⟨_, _, hstack, .run hplace (h _) hk⟩, hw.push trivial⟩
  | makeFunction hbody h | makeLazy hbody h =>
    exact ⟨⟨_, _, hstack, .run hplace (h _) hk⟩, hw.push hbody⟩
  | log h => exact ⟨⟨_, _, hstack, .run hplace h hk⟩, hw⟩
  | @request _ _ r _ hr h =>
    cases r with
    | call | recur => exact hr.elim
    | base args =>
      cases hplace with
      | inside hf => exact ⟨⟨_, _, .base hf h hk hstack, .base hwait⟩, hw⟩
      | aside => cases hr
    | _ => exact ⟨⟨_, _, .body hplace h hk hstack, .request trivial hwait⟩, hw⟩

theorem descends_requested {k : Nat} {frame : Option Frame} {r : Request}
    (hstack : Descent t n .aside left stack) (hw : w.Defers) (hr : r.Allowed false)
    (hk : k + bodies stack = n) :
    Descends t n ⟨requested k frame w r, stack, constructed w r⟩ := by
  have hrun {p : Program Value} (hp : p.Defers false) : Descends t n ⟨.run k none p, stack, w⟩ :=
    ⟨⟨_, _, hstack, .run .aside hp hk⟩, hw⟩
  cases r with
  | call | recur => exact hr.elim
  | base => cases hr
  | force id =>
    simp only [requested]
    split
    · next ho => exact hrun (hw id _ ho)
    · exact ⟨⟨_, _, hstack, .answer⟩, hw⟩
  | apply id args =>
    simp only [requested]
    split
    · next ho => exact hrun (hw id _ ho args)
    · exact ⟨⟨_, _, hstack, .answer⟩, hw⟩
  | read id index => exact hrun (Program.closed_defers.fieldAt id index)
  | unify p v => exact hrun ((Program.closed_defers.matching p v).bind fun _ => .done _)
  | construct v args => exact ⟨⟨_, _, hstack, .answer⟩, hw.constructed v args⟩

theorem descends_called {k : Nat} {u : Trait} {args : List Value} (ht : t.Defers)
    (hstack : Descent t n .calling left stack) (hw : w.Defers) (hu : u.chain <:+ left)
    (hk : k + bodies stack = n) : Descends t n (called k u args stack w) := by
  unfold called
  split
  · exact ⟨⟨_, _, hstack, .answer⟩, hw⟩
  · split
    · exact ⟨⟨_, _, hstack, .answer⟩, hw⟩
    · refine ⟨⟨_, _, .call hu hstack, ?_⟩, hw⟩
      dsimp only [body]
      split
      · next memo hmemo =>
        have hlayer := ht.link (hu.trans hstack.left_suffix) u.layer List.mem_cons_self
        exact .lookUp List.suffix_rfl (hlayer.memo memo hmemo) hk
      · exact .dispatch List.suffix_rfl hk

theorem descends_lookedUp {k : Nat} {memo : Memo} {u : Trait} {receiver : Value} {args : List Value}
    (hstack : Descent t n .inside left stack) (hw : w.Defers) (hu : u.chain <:+ left)
    (hbottom : memo.bottom.Defers) (hk : k + bodies stack = n) :
    Descends t n (lookedUp k memo u receiver args stack w) := by
  unfold lookedUp
  split
  · exact ⟨⟨_, _, hstack, .answer⟩, hw⟩
  · split
    · exact ⟨⟨_, _, hstack, .answer⟩, hw⟩
    · refine ⟨⟨_, _, .bottom hu hk hstack, ?_⟩, hw⟩
      cases hb : memo.bottom with
      | value v => exact .answer
      | compute body =>
        rw [hb] at hbottom
        exact .run .aside (hbottom args) hk

theorem descends_dispatched {k : Nat} {u : Trait} {receiver : Value} {args : List Value}
    (ht : t.Defers) (hstack : Descent t n .inside left stack) (hw : w.Defers)
    (hu : u.chain <:+ left) (hk : k + bodies stack = n) :
    Descends t n ⟨dispatched k u receiver args w, stack, w⟩ := by
  unfold dispatched
  split
  · next found hfound =>
    have howner : found.owner.chain <:+ left := List.IsSuffix.trans (resolve_link hfound) hu
    have hlayer := ht.link (howner.trans hstack.left_suffix) found.owner.layer List.mem_cons_self
    exact ⟨⟨_, _, hstack, .run (.inside howner)
      ((hlayer.cases _ (resolve_mem hfound)).program _ _ _) hk⟩, hw⟩
  · exact ⟨⟨_, _, hstack, .answer⟩, hw⟩

theorem descends_resumed {result : Except Stop Value} {p : Pending}
    (hstack : Descent t n stage left (p :: stack)) (hw : w.Defers) :
    Descends t n (resumed result stack w p) := by
  cases hstack with
  | call _ h => exact ⟨⟨_, _, h, .answer⟩, hw⟩
  | @bottom k memo u receiver args path since _ _ hu hk h =>
    cases result with
    | ok b =>
      have hset : (w.storeSet memo.store path b).Defers := hw
      exact ⟨⟨_, _, .case h, .dispatch hu hk⟩, hset.reclaimed _⟩
    | error stop => exact ⟨⟨_, _, h, .answer⟩, hw⟩
  | case h => cases result <;> exact ⟨⟨_, _, h, .answer⟩, hw⟩
  | base hf hnext hk h =>
    rcases result with (_ | f) | v
    · exact ⟨⟨_, _, h, .run (.inside hf) (hnext _) hk⟩, hw⟩
    · exact ⟨⟨_, _, h, .answer⟩, hw⟩
    · exact ⟨⟨_, _, h, .run (.inside hf) (hnext _) hk⟩, hw⟩
  | body hplace hnext hk h =>
    rcases result with (_ | f) | v
    · exact ⟨⟨_, _, h, .run hplace (hnext _) hk⟩, hw⟩
    · exact ⟨⟨_, _, h, .answer⟩, hw⟩
    · exact ⟨⟨_, _, h, .run hplace (hnext _) hk⟩, hw⟩

end Steps

/-- Calls go on descending. -/
theorem Descends.next {t : Trait} {n : Nat} {m : Moment} (ht : t.Defers) (hm : m.Descends t n) :
    m.next.Descends t n := by
  obtain ⟨c, stack, w⟩ := m
  obtain ⟨⟨stage, left, hstack, hfits⟩, hw⟩ := hm
  dsimp only at hstack hfits hw
  cases hfits with
  | run hplace hp hk => exact descends_stepped hstack hw hplace hp hk
  | @base k f args hk =>
    cases k with
    | zero => exact ⟨⟨_, _, hstack, .answer⟩, hw⟩
    | succ k =>
      refine ⟨⟨_, _, hstack, ?_⟩, hw⟩
      dsimp only [Moment.next, requested]
      split
      · next u hbase =>
        exact .call (Trait.further_base hbase ▸ List.suffix_rfl) (Nat.succ_inj.mp (by omega))
      · exact .answer
  | @request k frame r left hr hk =>
    cases k with
    | zero => exact ⟨⟨_, _, hstack, .answer⟩, hw⟩
    | succ k =>
      have hk : k + bodies stack = n := by omega
      exact descends_requested hstack hw hr hk
  | call hu hk => exact descends_called ht hstack hw hu hk
  | lookUp hu hbottom hk => exact descends_lookedUp hstack hw hu hbottom hk
  | dispatch hu hk => exact descends_dispatched ht hstack hw hu hk
  | answer =>
    cases stack with
    | nil => exact ⟨⟨_, _, hstack, .answer⟩, hw⟩
    | cons p stack => exact descends_resumed hstack hw

/-- Only where no body may be nested any more does a run stop for that. -/
theorem next_exhausted {m : Moment} (h : m.next.control = .answer (.error .exhausted)) :
    m.control = .answer (.error .exhausted) ∨ ∃ frame r, m.control = .request 0 frame r := by
  rcases next_error h with h | ⟨-, hbound⟩ | ⟨f, hstop, -⟩
  · exact .inl h
  · exact .inr hbound
  · cases hstop

/-! ### Runs -/

/-- The calls in progress of the cases that run or wait, innermost first. -/
def cases (m : Moment) : List Frame :=
  match m.control with
  | .run _ (some f) _ => f :: waiting m.stack
  | _ => waiting m.stack

namespace Descends
variable {t : Trait} {n : Nat} {m : Moment}

/-- Cases within each other go outward. -/
theorem pairwise (hm : m.Descends t n) : m.cases.Pairwise fun f g => g.owner.Further f.owner := by
  obtain ⟨c, stack, w⟩ := m
  obtain ⟨⟨stage, left, hstack, hfits⟩, -⟩ := hm
  dsimp only at hstack hfits
  obtain ⟨hleft, hpairwise⟩ := hstack.waiting_further
  cases hfits with
  | run hplace =>
    cases hplace with
    | inside hf => exact List.pairwise_cons.mpr ⟨fun g hg => hf.trans (hleft nofun g hg), hpairwise⟩
    | aside => exact hpairwise
  | _ => exact hpairwise

theorem nodup (hm : m.Descends t n) : (m.cases.map (·.owner)).Nodup :=
  List.pairwise_map.mpr (hm.pairwise.imp fun h => h.ne.symm)

/-- A case that is found is further out than all that wait. -/
theorem further_of_dispatch (hm : m.Descends t n) {k : Nat} {u : Trait} {receiver : Value}
    {args : List Value} (hcontrol : m.control = .dispatch k u receiver args) {tag : String}
    {found : Resolution} (hfound : u.resolve? tag = some found) {f : Frame}
    (hf : f ∈ waiting m.stack) : f.owner.Further found.owner := by
  obtain ⟨⟨stage, left, hstack, hfits⟩, -⟩ := hm
  rw [hcontrol] at hfits
  cases hfits with
  | dispatch hu _ =>
    have hlink : found.owner.chain <:+ u.chain := resolve_link hfound
    exact hlink.trans (hu.trans (hstack.waiting_further.1 nofun f hf))

theorem active_le (hm : m.Descends t n) : active m.stack ≤ t.chain.length := by
  obtain ⟨⟨stage, left, hstack, -⟩, -⟩ := hm
  exact hstack.active_le

/-- With room for the calls and for what bodies do besides, there is always some left. -/
theorem room (hm : m.Descends t n) {b : Nat} (hb : bodiesWithin m.stack ≤ b)
    (hn : t.chain.length + b ≤ n) (frame : Option Frame) (r : Request) :
    m.control ≠ .request 0 frame r := by
  obtain ⟨⟨stage, left, hstack, hfits⟩, -⟩ := hm
  intro hcontrol
  have hactive := hstack.active_le
  obtain ⟨hcalling, hother⟩ := hstack.bodies_eq
  rw [hcontrol] at hfits
  cases hfits with
  | base hk =>
    have hbodies := hcalling rfl
    omega
  | request _ hk =>
    have hbodies := hother nofun
    omega

end Descends

theorem descends_outermost {t : Trait} {w : World} (ht : t.Defers) (hw : w.Defers) (n : Nat)
    (args : List Value) (k : Nat) : (outermost n t args w k).Descends t n := by
  induction k with
  | zero => exact ⟨⟨_, _, .nil, .call List.suffix_rfl rfl⟩, hw⟩
  | succ k ih =>
    rw [outermost, after_succ']
    exact ih.next ht

end Moment

open Moment in
/-- **Calls of the base descend.** Let the cases of a trait call nothing but their base, and
bottoms, functions and lazies call nothing. Then a case that is found while others wait is owned
further out in the chain than each of these, so that no two have the same owner; at most as many
calls are active as the chain has links; and the call ends, if what bodies do besides nests no
more bodies than there is room for. -/
theorem Trait.Defers.descends {t : Trait} (ht : t.Defers) {w : World} (hw : w.Defers) (n : Nat)
    (args : List Value) :
    (∀ k j u receiver args', (outermost n t args w k).control = .dispatch j u receiver args' →
      ∀ found, u.resolve? ((outermost n t args w k).world.receiver receiver).caseName = some found →
        ∀ f ∈ waiting (outermost n t args w k).stack, f.owner.Further found.owner) ∧
    (∀ k, ((outermost n t args w k).cases.Pairwise fun f g => g.owner.Further f.owner) ∧
      ((outermost n t args w k).cases.map (·.owner)).Nodup ∧
      active (outermost n t args w k).stack ≤ t.chain.length) ∧
    ∀ b, (∀ k, bodiesWithin (outermost n t args w k).stack ≤ b) → t.chain.length + b ≤ n →
      (t.call (perform n) args w).1 ≠ .error .exhausted := by
  have hrun (k : Nat) : (outermost n t args w k).Descends t n := descends_outermost ht hw n args k
  refine ⟨fun k j u receiver args' hcontrol found hfound f hf => ?_, fun k => ?_,
    fun b hb hn hresult => ?_⟩
  · exact (hrun k).further_of_dispatch hcontrol hfound hf
  · exact ⟨(hrun k).pairwise, (hrun k).nodup, (hrun k).active_le⟩
  · have hnever (k : Nat) : (outermost n t args w k).control ≠ .answer (.error .exhausted) := by
      induction k with
      | zero => exact nofun
      | succ k ih =>
        rw [outermost, after_succ']
        intro h
        rcases next_exhausted h with h | ⟨frame, r, h⟩
        · exact ih h
        · exact (hrun k).room (hb k) hn frame r h
    obtain ⟨k, hk⟩ := Moment.answers (.call n t args) [] w
    refine hnever k ?_
    rw [outermost, hk]
    exact congrArg _ hresult

/-! ### A chain of four links -/

/-- A trait for everything. -/
def least : Trait := ⟨⟨0, "size", none, [(wildcard, .handler fun _ => pure (.int 0))], none, 512⟩, []⟩

/-- A trait that overrides it for leaves by a rule, and one that overrides that; both go on to
their base. -/
def ruled : Trait :=
  ⟨⟨1, "size", none, [("Leaf", .rules ⟨[⟨[.wildcard], fun args => .perform (.base args)⟩]⟩)], none,
    512⟩, least.chain⟩

def deferring : Trait :=
  ⟨⟨2, "size", none, [("Leaf", .handler fun args => .perform (.base args))], none, 512⟩, ruled.chain⟩

/-- The last one through a memo table. -/
def deferringOnce : Trait := deferring.memoized 3 ⟨0, .value .null⟩

theorem deferringOnce_defers : deferringOnce.Defers := by
  have hbase (args : List Value) : (Program.perform (.base args)).Defers true :=
    .request rfl fun _ => .done _
  intro l hl
  rcases (by simpa [deferringOnce, deferring, ruled, least, Trait.chain, Trait.memoized] using hl :
    l = _ ∨ l = _ ∨ l = _ ∨ l = _) with rfl | rfl | rfl | rfl
  · refine ⟨fun c hc => (by cases hc), fun memo hmemo => ?_⟩
    cases hmemo
    trivial
  · refine ⟨fun c hc => ?_, fun memo hmemo => by cases hmemo⟩
    cases List.mem_singleton.mp hc
    exact hbase
  · refine ⟨fun c hc => ?_, fun memo hmemo => by cases hmemo⟩
    cases List.mem_singleton.mp hc
    intro rule hrule
    cases List.mem_singleton.mp hrule
    exact hbase
  · refine ⟨fun c hc => ?_, fun memo hmemo => by cases hmemo⟩
    cases List.mem_singleton.mp hc
    exact fun _ => .done _

/-- A call on a leaf goes through all of them and ends. -/
theorem deferringOnce_ends :
    deferringOnce.Defers ∧ oneLeafTable.Defers ∧
      (∀ k, active (Moment.outermost 5 deferringOnce [.inst 0] oneLeafTable k).stack ≤ 4) ∧
      (deferringOnce.call (perform 5) [.inst 0] oneLeafTable).1 ≠ .error .exhausted := by
  have hdefers := deferringOnce_defers
  have hworld : oneLeafTable.Defers := by
    intro id o ho
    cases id with
    | zero =>
      cases ho
      trivial
    | succ id => cases ho
  obtain ⟨-, hruns, hends⟩ := hdefers.descends hworld 5 [.inst 0]
  refine ⟨hdefers, hworld, fun k => (hruns k).2.2, hends 1 (fun k => ?_) (by decide)⟩
  have hend : Moment.after 21 ⟨.call 5 deferringOnce [.inst 0], [], oneLeafTable⟩ =
    Moment.ended (.ok (.int 0)) (Moment.outermost 5 deferringOnce [.inst 0] oneLeafTable 21).world :=
    rfl
  -- None of the three cases requests anything but the call of its base.
  refine Moment.forall_after hend (P := fun m => bodiesWithin m.stack ≤ 1) (fun k hk => ?_) k
  interval_cases k <;> decide

end OpenVariants

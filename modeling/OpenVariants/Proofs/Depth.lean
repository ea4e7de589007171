import OpenVariants.Proofs.Moments

/-! The depth of calls.

Every segment of a stack counts calls with a counter of its own, and every 256th call
begins a segment. Together the counters are one count: at every moment of a run the
counter of the last segment is the number of calls that are active then, and an earlier
segment waits for each full 256 of them (`Counted.current`, `suspended_within`). So a call
is refused exactly if as many calls enclose it as its trait allows, and the depth is the
same after a call as before it, whatever the call came to (`call_depth`). -/
namespace OpenVariants

/-- How many of what waits are calls. -/
def active : List Pending → Nat
  | [] => 0
  | .call .. :: rest => active rest + 1
  | _ :: rest => active rest

namespace Nesting

/-- The counters inside a stack of calls. -/
def within : List Pending → Nesting
  | [] => {}
  | .call .. :: rest => (within rest).inside
  | _ :: rest => within rest

theorem outside_inside (n : Nesting) : n.inside.outside n.enter.atBoundary = n := by
  unfold inside outside
  cases n.enter.atBoundary <;> rfl

theorem current_within (stack : List Pending) : (within stack).current = active stack := by
  induction stack with
  | nil => rfl
  | cons p rest ih =>
    cases p with
    | call t args segment =>
      rw [within, current_inside, ih]
      rfl
    | _ => exact ih

/-- A segment waits for every 256 calls. -/
theorem suspended_within (stack : List Pending) :
    (within stack).suspended.length = active stack / segment := by
  induction stack with
  | nil => rfl
  | cons p rest ih =>
    cases p with
    | call t args flag =>
      -- The counter of the last segment says whether this call is a 256th one.
      have hcurrent := current_within rest
      simp only [within, inside, atBoundary, enter, suspend, active, segment, hcurrent] at ih ⊢
      split
      · next h =>
        simp only [List.length_cons, ih, beq_iff_eq] at h ⊢
        omega
      · next h =>
        simp only [ih, beq_iff_eq] at h ⊢
        omega
    | _ => exact ih

end Nesting

/-- Which calls of a stack began a segment. -/
def Segmented : List Pending → Prop
  | [] => True
  | .call _ _ segment :: rest => segment = (Nesting.within rest).enter.atBoundary ∧ Segmented rest
  | _ :: rest => Segmented rest

namespace Moment

/-- The counters of the world are those of the active calls. -/
structure Counted (m : Moment) : Prop where
  nesting : m.world.nesting = .within m.stack
  segments : Segmented m.stack

/-- No call is active at the start of a run. -/
theorem counted_start (c : Control) {w : World} (hw : w.nesting = {}) : Counted ⟨c, [], w⟩ :=
  ⟨hw, trivial⟩

theorem Counted.current {m : Moment} (hm : m.Counted) :
    m.world.nesting.current = active m.stack := by
  rw [hm.nesting, Nesting.current_within]

/-- The counters stay those of the active calls: only the begin of a call and its end change
either, and the end undoes what the begin did. -/
theorem Counted.next {m : Moment} (hm : m.Counted) : m.next.Counted := by
  have hchange := m.change
  generalize m.next = m' at hchange
  obtain ⟨hnesting, hsegments⟩ := hm
  cases hchange with
  | quiet hq => exact ⟨hq.nesting.trans hnesting, hsegments⟩
  | enter hroom =>
    refine ⟨?_, ?_, hsegments⟩
    · exact congrArg Nesting.inside hnesting
    · exact congrArg (fun n => n.enter.atBoundary) hnesting
  | leave =>
    obtain ⟨rfl, hrest⟩ := hsegments
    refine ⟨?_, hrest⟩
    dsimp only at hnesting ⊢
    rw [hnesting]
    exact Nesting.outside_inside _
  | install =>
    refine ⟨?_, hsegments⟩
    dsimp only at hnesting ⊢
    rw [World.nesting_reclaimed]
    exact hnesting
  | wait | miss | resume | abandon | result | failure => exact ⟨hnesting, hsegments⟩

theorem Counted.after {m : Moment} (hm : m.Counted) (k : Nat) : (m.after k).Counted :=
  after_of_next (P := Counted) (fun _ => Counted.next) hm k

theorem Counted.leads {m m' : Moment} (hm : m.Counted) (h : m.Leads m') : m'.Counted := by
  obtain ⟨k, rfl⟩ := h
  exact hm.after k

/-- The begin of a call, by the number of calls around it. -/
theorem Counted.next_call {n : Nat} {t : Trait} {receiver : Value} {rest : List Value}
    {stack : List Pending} {w : World}
    (hm : Counted ⟨.call n t (receiver :: rest), stack, w⟩) :
    Moment.next ⟨.call n t (receiver :: rest), stack, w⟩ =
      if active stack < t.layer.maxDepth then
        ⟨body n t receiver (receiver :: rest),
          .call t (receiver :: rest) w.nesting.enter.atBoundary :: stack,
          {w with nesting := w.nesting.inside}⟩
      else
        ⟨.answer (.error (.fault (.dispatch (.recursionLimit t.name t.layer.maxDepth)))), stack, w⟩ := by
  have hcurrent := hm.current
  simp only at hcurrent
  simp only [Moment.next, called, hcurrent]
  by_cases hroom : active stack < t.layer.maxDepth
  · rw [if_pos hroom, if_neg (Nat.not_le_of_lt hroom)]
  · rw [if_neg hroom, if_pos (Nat.le_of_not_lt hroom)]

/-- In a run that begins outside of all calls, a call starts if fewer calls are active than its
trait allows; otherwise it fails at once, and the world is as it was. Either way it comes to what
evaluation gives, and the depth is then what it was before the call. -/
theorem call_depth {c : Control} {w₀ w : World} (hstart : w₀.nesting = {}) {k n : Nat} {t : Trait}
    {receiver : Value} {rest : List Value} {stack : List Pending}
    (hcall : after k ⟨c, [], w₀⟩ = ⟨.call n t (receiver :: rest), stack, w⟩) :
    w.nesting.current = active stack ∧
      w.nesting.suspended.length = active stack / Nesting.segment ∧
      next ⟨.call n t (receiver :: rest), stack, w⟩ =
        (if active stack < t.layer.maxDepth then
          ⟨body n t receiver (receiver :: rest),
            .call t (receiver :: rest) w.nesting.enter.atBoundary :: stack,
            {w with nesting := w.nesting.inside}⟩
        else
          ⟨.answer (.error (.fault (.dispatch (.recursionLimit t.name t.layer.maxDepth)))), stack,
            w⟩) ∧
      ∃ result w', t.call (perform n) (receiver :: rest) w = (result, w') ∧
        Leads ⟨.call n t (receiver :: rest), stack, w⟩ ⟨.answer result, stack, w'⟩ ∧
        w'.nesting = w.nesting := by
  have hm := (counted_start c hstart).after k
  rw [hcall] at hm
  have hanswer := answers (.call n t (receiver :: rest)) stack w
  refine ⟨hm.current, ?_, hm.next_call, _, _, rfl, hanswer, ?_⟩
  · have hnesting := hm.nesting
    dsimp only at hnesting
    rw [hnesting, Nesting.suspended_within]
  · exact (hm.leads hanswer).nesting.trans hm.nesting.symm

/-- A trait that calls itself as often as it is allowed to. -/
def circling : Trait :=
  ⟨⟨0, "circling", none, [(wildcard, .handler fun args => .perform (.recur args))], none, 1⟩, []⟩

/-- With room for one call, the second one is refused. -/
theorem circling_refused :
    ∃ stack w, after 4 ⟨.call 2 circling [.null], [], {}⟩ = ⟨.call 1 circling [.null], stack, w⟩ ∧
      active stack = 1 ∧ w.nesting.current = 1 ∧
      next ⟨.call 1 circling [.null], stack, w⟩ =
        ⟨.answer (.error (.fault (.dispatch (.recursionLimit "circling" 1)))), stack, w⟩ := by
  have hcall : after 4 ⟨.call 2 circling [.null], [], {}⟩ =
      ⟨.call 1 circling [.null], _, _⟩ := rfl
  obtain ⟨hcurrent, _, hnext, _⟩ := call_depth rfl hcall
  exact ⟨_, _, hcall, rfl, hcurrent, hnext⟩

end Moment

end OpenVariants

import OpenVariants.Proofs.Sweeps

/-! The course of a session.

A session goes from world to world, step by step (`Session.after`). In each world it
comes to, what names stand for is in hand and nothing else is living
(`Session.Reachable.atRest`). From then on an object that died stays dead, and a knot
that was tied stays tied to the same value (`World.Since`). -/
namespace OpenVariants

open World

/-- A world later in a session: no object comes back, no number is used twice, and tied
knots stay as they are. -/
structure World.Since (w w' : World) : Prop where
  before : w.heap.Before w'.heap
  knots : ∀ (k : KnotId) v, w.knots[k]? = some (some v) → w'.knots[k]? = some (some v)

theorem World.Since.refl (w : World) : w.Since w := ⟨.refl _, fun _ _ h => h⟩

theorem World.Since.trans {w w' w'' : World} (h : w.Since w') (h' : w'.Since w'') : w.Since w'' :=
  ⟨h.before.trans h'.before, fun k v hk => h'.knots k v (h.knots k v hk)⟩

/-- A part of a command. -/
theorem World.Onward.since {w w' : World} (h : w.Onward w') : w.Since w' := ⟨h.before, h.knots⟩

/-- Letting go brings nothing back. -/
theorem World.Since.settled {w w' : World} (h : w.Since w') (hf : w'.Fit) : w.Since w'.settled :=
  ⟨h.before.trans (before_settled hf), h.knots⟩

namespace Session

/-- The world after some steps. -/
def after : List Step → World → World
  | [], w => w
  | s :: rest, w => after rest (step s w).2

theorem after_append (steps rest : List Step) (w : World) :
    after (steps ++ rest) w = after rest (after steps w) := by
  induction steps generalizing w with
  | nil => rfl
  | cons s steps ih => exact ih _

/-- A world that a session comes to. -/
def Reachable (w : World) : Prop := ∃ config steps, after steps (start config) = w

/-- A world of a session is at rest on its own. -/
theorem AtRest.self {w w' : World} (h : AtRest w w') : AtRest w w := by
  refine ⟨h.settled, rfl, h.twin.fit, rfl, fun i a b ha hb => ?_⟩
  rw [ha] at hb
  cases hb
  have hfit := h.twin.registries.fit ha
  exact ⟨hfit, hfit, rfl, rfl, rfl, fun _ _ => Iff.rfl⟩

theorem AtRest.next {w : World} (h : AtRest w w) (s : Step) :
    AtRest (Session.step s w).2 (Session.step s w).2 := by
  cases hs : s.isSweep with
  | true => exact (h.sweep hs).self
  | false => exact (h.step rfl hs).2

theorem AtRest.after {w : World} (h : AtRest w w) (rest : List Step) :
    AtRest (Session.after rest w) (Session.after rest w) := by
  induction rest generalizing w with
  | nil => exact h
  | cons s rest ih => exact ih (h.next s)

theorem Reachable.atRest {w : World} (hw : Reachable w) : AtRest w w := by
  obtain ⟨config, steps, rfl⟩ := hw
  exact (atRest_start rfl).after steps

theorem Reachable.fit {w : World} (hw : Reachable w) : w.Fit := hw.atRest.twin.fit

theorem Reachable.after {w : World} (hw : Reachable w) (rest : List Step) :
    Reachable (after rest w) := by
  obtain ⟨config, steps, rfl⟩ := hw
  exact ⟨config, steps ++ rest, after_append steps rest _⟩

theorem Reachable.next {w : World} (hw : Reachable w) (s : Step) : Reachable (step s w).2 :=
  hw.after [s]

/-! ### What a step leaves of what was -/

/-- No command brings anything back. -/
theorem execute_since {w : World} (ht : w.Twin w.registries) (quiet : Bool) (c : Command) :
    w.Since (execute quiet c w).2 ∧ (execute quiet c w).2.Fit ∧
      ∀ made, (execute quiet c w).1 = .ok made → (execute quiet c w).2.HasMade made := by
  by_cases hsteady : c.isSteady = true
  · obtain ⟨r, w₁, rs, hrun, -, ht₁, ho, hmade⟩ :=
      steady_execute quiet c hsteady w w.registries (.refl w) ht
    rw [hrun]
    exact ⟨ho.since, ht₁.fit, hmade⟩
  · cases c with
    | purge name =>
      obtain ⟨r, rs, hrun, -, hmade⟩ := execute_purge quiet name w
      have ho : w.Onward {w with registries := rs} := onward_of_eq rfl rfl rfl rfl rfl rfl
      rw [hrun]
      refine ⟨ho.since, ht.fit.onward ho, fun made h b hb => ?_⟩
      rw [hmade made h] at hb
      cases hb
    | registry config =>
      have hmatch := match_registry quiet (Eq.refl config.maxDepth) ht
      have ho : w.Onward (w.addRegistry config).2 := onward_of_eq rfl rfl rfl rfl rfl rfl
      exact ⟨ho.since, hmatch.twin.fit, hmatch.made⟩
    | registryInfo name =>
      have hmatch := match_registryInfo quiet name ht
      have hsame : (execute quiet (.registryInfo name) w).2 = w := by
        have hrun : execute quiet (.registryInfo name) w = _ :=
          withRegistry_apply name (fun _ w r => only (.registry (registryInfo w r))) w
        rw [hrun]
        cases (w.binding? name).bind Binding.registry? with
        | none => rfl
        | some id =>
          dsimp only
          cases w.registries[id]? <;> rfl
      exact ⟨hsame.symm ▸ .refl w, hmatch.twin.fit, hmatch.made⟩
    | drop name =>
      have hmatch := match_drop quiet name ht
      exact ⟨⟨.refl _, fun _ _ h => h⟩, hmatch.twin.fit, hmatch.made⟩
    | _ => exact absurd rfl hsteady

/-- Naming what a command made leaves everything else. -/
theorem since_named {w : World} (h : w.Fit) (s : Step) {made : Option Binding}
    (hmade : ∀ b, made = some b → w.HasBinding b) : w.Since (named s made w) ∧ (named s made w).Fit := by
  unfold named
  split
  · next name b _ => exact ⟨⟨.refl _, fun _ _ hk => hk⟩, h.bind name (hmade b rfl)⟩
  · exact ⟨.refl w, h⟩

/-- The world at the end of a step, before what no name keeps alive is let go. -/
def unsettled (s : Step) (w : World) : World :=
  match execute s.quiet s.command {w with log := []} with
  | (.ok (_, made), w) => named s made w
  | (.error _, w) => w

theorem step_settles (s : Step) (w : World) : (step s w).2 = (unsettled s w).settled := by
  rw [step_eq, unsettled]
  rcases execute s.quiet s.command {w with log := []} with ⟨_ | ⟨reply, made⟩, w₁⟩ <;> rfl

/-- Until a step ends nothing comes back, and what names stand for is in hand. -/
theorem Reachable.unsettled {w : World} (hw : Reachable w) (s : Step) :
    w.Since (Session.unsettled s w) ∧ (Session.unsettled s w).Fit := by
  have ht := hw.atRest.twin.unlogged
  obtain ⟨hsince, hfit, hmade⟩ := execute_since (w := {w with log := []}) ht s.quiet s.command
  have hstart : w.Since {w with log := []} := ⟨.refl _, fun _ _ h => h⟩
  unfold Session.unsettled
  generalize execute s.quiet s.command {w with log := []} = out at *
  obtain ⟨r, w₁⟩ := out
  cases r with
  | error stop => exact ⟨hstart.trans hsince, hfit⟩
  | ok made =>
    obtain ⟨reply, made⟩ := made
    obtain ⟨hnamed, hfit'⟩ := since_named hfit s (hmade _ rfl)
    exact ⟨(hstart.trans hsince).trans hnamed, hfit'⟩

/-- No step brings anything back. -/
theorem Reachable.since_next {w : World} (hw : Reachable w) (s : Step) : w.Since (step s w).2 := by
  obtain ⟨hsince, hfit⟩ := hw.unsettled s
  rw [step_settles]
  exact hsince.settled hfit

theorem Reachable.since {w : World} (hw : Reachable w) (rest : List Step) :
    w.Since (Session.after rest w) := by
  induction rest generalizing w with
  | nil => exact .refl w
  | cons s rest ih => exact (hw.since_next s).trans (ih (hw.next s))

/-- A later world of a session, between steps or in the midst of one. -/
def Ahead (w w' : World) : Prop := ∃ rest, (Session.after rest w).Onward w'

theorem ahead_after (rest : List Step) (w : World) : Ahead w (Session.after rest w) :=
  ⟨rest, .refl _⟩

theorem Reachable.since_ahead {w w' : World} (hw : Reachable w) (h : Ahead w w') : w.Since w' := by
  obtain ⟨rest, ho⟩ := h
  exact (hw.since rest).trans ho.since

end Session

end OpenVariants

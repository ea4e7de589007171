/-! Loops that end.

A loop goes round until it has its result. A round that does not end it may note what it
did, and makes the state smaller. So there are at most as many rounds as the state is
large at first (`rounds_le_size`), and what each round keeps holds in the end (`keeps`). -/
namespace OpenVariants

/-- What a round comes to. -/
inductive Round (σ ε ρ : Type) where
  | done (result : ρ)
  | again (note : Option ε) (state : σ)

/-- A loop, with the measure of its states that shows that it ends. -/
structure Loop (σ ε ρ : Type) where
  round : σ → Round σ ε ρ
  size : σ → Nat
  smaller : ∀ {s note s'}, round s = .again note s' → size s' < size s

namespace Loop
variable {σ ε ρ : Type} (l : Loop σ ε ρ)

/-- The result. -/
@[semireducible] def run (s : σ) : ρ :=
  match _h : l.round s with
  | .done result => result
  | .again _ s' => run s'
termination_by l.size s
decreasing_by exact l.smaller _h

/-- What the rounds noted, first one first. -/
@[semireducible] def notes (s : σ) : List ε :=
  match _h : l.round s with
  | .done _ => []
  | .again note s' => note.toList ++ notes s'
termination_by l.size s
decreasing_by exact l.smaller _h

/-- How often the loop goes on. -/
@[semireducible] def rounds (s : σ) : Nat :=
  match _h : l.round s with
  | .done _ => 0
  | .again _ s' => rounds s' + 1
termination_by l.size s
decreasing_by exact l.smaller _h

variable {l} {s s' : σ} {note : Option ε} {result : ρ}

theorem run_done (h : l.round s = .done result) : l.run s = result := by
  rw [run]
  split <;> simp_all

theorem run_again (h : l.round s = .again note s') : l.run s = l.run s' := by
  rw [run]
  split <;> simp_all

theorem notes_done (h : l.round s = .done result) : l.notes s = [] := by
  rw [notes]
  split <;> simp_all

theorem notes_again (h : l.round s = .again note s') :
    l.notes s = note.toList ++ l.notes s' := by
  rw [notes]
  split <;> simp_all

theorem rounds_done (h : l.round s = .done result) : l.rounds s = 0 := by
  rw [rounds]
  split <;> simp_all

theorem rounds_again (h : l.round s = .again note s') : l.rounds s = l.rounds s' + 1 := by
  rw [rounds]
  split <;> simp_all

/-- What each round keeps, whatever was noted before, holds of all notes and the result. -/
theorem keeps {P : List ε → σ → Prop} {Q : List ε → ρ → Prop}
    (hagain : ∀ notes s note s', P notes s → l.round s = .again note s' →
      P (notes ++ note.toList) s')
    (hdone : ∀ notes s result, P notes s → l.round s = .done result → Q notes result)
    (before : List ε) (s : σ) (hs : P before s) : Q (before ++ l.notes s) (l.run s) := by
  cases h : l.round s with
  | done result =>
    rw [run_done h, notes_done h, List.append_nil]
    exact hdone before s result hs h
  | again note s' =>
    have hrest := keeps hagain hdone _ s' (hagain before s note s' hs h)
    rw [run_again h, notes_again h]
    rwa [List.append_assoc] at hrest
termination_by l.size s
decreasing_by exact l.smaller h

/-- A loop goes on at most as often as its state is large at first. -/
theorem rounds_le_size (s : σ) : l.rounds s ≤ l.size s := by
  cases h : l.round s with
  | done result =>
    rw [rounds_done h]
    exact Nat.zero_le _
  | again note s' =>
    rw [rounds_again h]
    exact Nat.lt_of_le_of_lt (rounds_le_size s') (l.smaller h)
termination_by l.size s
decreasing_by exact l.smaller h

end Loop

end OpenVariants

import OpenVariants.Proofs.Construction
import OpenVariants.Proofs.Shape

/-! Plans: what a pure case does.

A pure case follows a plan that is a function of the shapes of its arguments. It ends
with a value of a shape or with a fault, calls its trait or the base of its owner and
goes on with the shape of the answer, and passes faults on. Between its calls it does
what it likes, as long as nothing that lives dies and nobody's tables change; how much
room that needs is part of the plan. A chain of layers with plans for its cases has a
value for every tuple of shapes, or none (`Trait.eval`). -/
namespace OpenVariants

/-- Whom a case calls: its trait again, or the base of its owner. -/
inductive Callee where
  | again | base
  deriving DecidableEq, Repr

def Callee.request (args : List Value) : Callee → Request
  | again => .recur args
  | base => .base args

/-- The trait that is called, if there is one. -/
def Frame.callee? (f : Frame) : Callee → Option Trait
  | .again => some f.invoked
  | .base => f.owner.base?

inductive Plan where
  | done (s : Shape)
  | fail
  | call (callee : Callee) (args : List Shape) (next : Shape → Plan)
  /-- Go on if there is that much fuel and there are at most so many calls active. -/
  | need (fuel : Nat) (room : Option Nat) (next : Plan)

/-- Whether there is enough fuel and room. -/
def Plan.Enough (fuel depth needed : Nat) (room : Option Nat) : Prop :=
  needed ≤ fuel ∧ ∀ most ∈ room, depth ≤ most

instance (fuel depth needed : Nat) (room : Option Nat) :
    Decidable (Plan.Enough fuel depth needed room) :=
  inferInstanceAs (Decidable (_ ∧ _))

/-- The value of a plan, given those of its calls. -/
def Plan.eval (fuel depth : Nat) (answer : Callee → List Shape → Option Shape) :
    Plan → Option Shape
  | done s => some s
  | fail => none
  | call callee args next =>
    (answer callee args).bind fun s => (next s).eval fuel depth answer
  | need needed room next =>
    if Enough fuel depth needed room then next.eval fuel depth answer else none

/-- Plans for the cases of traits, by owner and name. -/
abbrev Plans := Trait → String → List Shape → Plan

/-- The name by which a call on a shape looks for a case. -/
def Shape.caseName : Shape → String
  | node (.inst tag) _ => tag.name
  | _ => ""

/-- The value of a call, given those of the calls in it. -/
def Trait.evalWith (plans : Plans) (fuel depth : Nat) (call : Trait → List Shape → Option Shape)
    (t : Trait) (args : List Shape) : Option Shape :=
  match args with
  | [] => none
  | receiver :: _ =>
    if t.layer.maxDepth ≤ depth then none
    else
      (t.resolve? receiver.caseName).bind fun found =>
        (plans found.owner found.name args).eval fuel (depth + 1) fun callee args =>
          (Frame.callee? ⟨t, found.owner⟩ callee).bind fun u => call u args

/-- The value of a call of a trait at a depth, with fuel for that many nested calls. -/
def Trait.eval (plans : Plans) : (fuel depth : Nat) → Trait → List Shape → Option Shape
  | 0, depth, t, args => t.evalWith plans 0 depth (fun _ _ => none) args
  | n + 1, depth, t, args => t.evalWith plans (n + 1) depth (Trait.eval plans n (depth + 1)) args

/-- The value of a call in a call that has the fuel. -/
def Trait.below (plans : Plans) : (fuel depth : Nat) → Trait → List Shape → Option Shape
  | 0, _, _, _ => none
  | n + 1, depth, t, args => t.eval plans n depth args

/-- The values of the calls of a case that has the fuel. -/
def Frame.answers (plans : Plans) (fuel depth : Nat) (f : Frame) (callee : Callee)
    (args : List Shape) : Option Shape :=
  (f.callee? callee).bind fun u => u.below plans fuel depth args

/-- The value of the case that a call runs. -/
def Trait.inside (plans : Plans) (fuel depth : Nat) (t : Trait) : List Shape → Option Shape
  | [] => none
  | receiver :: rest =>
    (t.resolve? receiver.caseName).bind fun found =>
      (plans found.owner found.name (receiver :: rest)).eval fuel depth
        (Frame.answers plans fuel depth ⟨t, found.owner⟩)

theorem Trait.inside_eq_some {plans : Plans} {n d : Nat} {t : Trait} {args : List Shape} {s : Shape} :
    t.inside plans n d args = some s ↔ ∃ receiver rest found, args = receiver :: rest ∧
      t.resolve? receiver.caseName = some found ∧
      (plans found.owner found.name args).eval n d
        (Frame.answers plans n d ⟨t, found.owner⟩) = some s := by
  cases args with
  | nil => simp [inside]
  | cons receiver rest =>
    rw [inside, Option.bind_eq_some_iff]
    refine ⟨fun ⟨found, hfound, h⟩ => ⟨receiver, rest, found, rfl, hfound, h⟩, ?_⟩
    rintro ⟨_, _, found, hargs, hfound, h⟩
    cases hargs
    exact ⟨found, hfound, h⟩

/-- A call that may start has the value of its case. -/
theorem Trait.eval_eq_some {plans : Plans} {n d : Nat} {t : Trait} {args : List Shape} {s : Shape} :
    t.eval plans n d args = some s ↔
      d < t.layer.maxDepth ∧ t.inside plans n (d + 1) args = some s := by
  have heq : t.eval plans n d args = t.evalWith plans n d (Trait.below plans n (d + 1)) args := by
    cases n <;> rfl
  rw [heq]
  cases args with
  | nil => simp [evalWith, inside]
  | cons receiver rest =>
    rw [evalWith]
    split
    · next hfull => simp [Nat.not_lt.mpr hfull]
    · next hroom => exact ⟨fun h => ⟨Nat.not_le.mp hroom, h⟩, And.right⟩

/-- A call comes to a value with some fuel and some room. -/
def Trait.ComesTo (plans : Plans) (t : Trait) (args : List Shape) (s : Shape) : Prop :=
  ∃ n d, t.eval plans n d args = some s

/-! ### More fuel and more room -/

theorem Plan.eval_mono {fuel fuel' depth depth' : Nat}
    {answer answer' : Callee → List Shape → Option Shape} (hfuel : fuel ≤ fuel')
    (hdepth : depth' ≤ depth)
    (hanswer : ∀ callee args s, answer callee args = some s → answer' callee args = some s)
    (p : Plan) {s : Shape} (h : p.eval fuel depth answer = some s) :
    p.eval fuel' depth' answer' = some s := by
  induction p with
  | done => exact h
  | fail => cases h
  | call callee args next ih =>
    obtain ⟨r, hr, hnext⟩ := Option.bind_eq_some_iff.mp h
    exact Option.bind_eq_some_iff.mpr ⟨r, hanswer callee args r hr, ih r hnext⟩
  | need needed room next ih =>
    rw [eval] at h ⊢
    split at h
    · next henough =>
      rw [if_pos ⟨Nat.le_trans henough.1 hfuel,
        fun most hm => Nat.le_trans hdepth (henough.2 most hm)⟩]
      exact ih h
    · cases h

theorem Trait.evalWith_mono {plans : Plans} {fuel fuel' depth depth' : Nat}
    {call call' : Trait → List Shape → Option Shape} (hfuel : fuel ≤ fuel')
    (hdepth : depth' ≤ depth) (hcall : ∀ t args s, call t args = some s → call' t args = some s)
    {t : Trait} {args : List Shape} {s : Shape}
    (h : t.evalWith plans fuel depth call args = some s) :
    t.evalWith plans fuel' depth' call' args = some s := by
  cases args with
  | nil => cases h
  | cons receiver rest =>
    simp only [evalWith] at h ⊢
    split at h
    · cases h
    · next hroom =>
      rw [if_neg fun hfull => hroom (Nat.le_trans hfull hdepth)]
      obtain ⟨found, hfound, hplan⟩ := Option.bind_eq_some_iff.mp h
      refine Option.bind_eq_some_iff.mpr ⟨found, hfound, ?_⟩
      refine Plan.eval_mono hfuel (Nat.succ_le_succ hdepth) (fun callee args s hs => ?_) _ hplan
      obtain ⟨u, hu, hs⟩ := Option.bind_eq_some_iff.mp hs
      exact Option.bind_eq_some_iff.mpr ⟨u, hu, hcall u args s hs⟩

/-- A value stays the same with more fuel and fewer calls active. -/
theorem Trait.eval_mono {plans : Plans} {n n' d d' : Nat} (hn : n ≤ n') (hd : d' ≤ d) {t : Trait}
    {args : List Shape} {s : Shape} (h : t.eval plans n d args = some s) :
    t.eval plans n' d' args = some s := by
  induction n generalizing n' d d' t args s with
  | zero =>
    cases n' with
    | zero => exact evalWith_mono (Nat.le_refl 0) hd (fun _ _ _ h => h) h
    | succ n' =>
      exact evalWith_mono (Nat.zero_le _) hd (fun _ _ _ h => by cases h) h
  | succ n ih =>
    cases n' with
    | zero => exact absurd hn (Nat.not_succ_le_zero n)
    | succ n' =>
      refine evalWith_mono hn hd (fun u us r hr => ?_) h
      exact ih (Nat.le_of_succ_le_succ hn) (Nat.succ_le_succ hd) hr

theorem Frame.answers_mono {plans : Plans} {n n' d : Nat} (hn : n ≤ n') {f : Frame} {callee : Callee}
    {args : List Shape} {s : Shape} (h : f.answers plans n d callee args = some s) :
    f.answers plans n' d callee args = some s := by
  obtain ⟨u, hu, hs⟩ := Option.bind_eq_some_iff.mp h
  refine Option.bind_eq_some_iff.mpr ⟨u, hu, ?_⟩
  cases n with
  | zero => cases hs
  | succ n =>
    cases n' with
    | zero => exact absurd hn (Nat.not_succ_le_zero n)
    | succ n' => exact Trait.eval_mono (Nat.le_of_succ_le_succ hn) (Nat.le_refl d) hs

/-- A call has one value, whatever the fuel and the room. -/
theorem Trait.eval_unique {plans : Plans} {n n' d d' : Nat} {t : Trait} {args : List Shape}
    {s s' : Shape} (h : t.eval plans n d args = some s) (h' : t.eval plans n' d' args = some s') :
    s = s' := by
  have hmax := t.eval_mono (Nat.le_max_left n n') (Nat.min_le_left d d') h
  have hmax' := t.eval_mono (Nat.le_max_right n n') (Nat.min_le_right d d') h'
  rw [hmax] at hmax'
  exact Option.some.inj hmax'

/-! ### Fuel put aside -/

/-- The plans of cases before which something else runs that needs fuel too. -/
def Plans.reserving (fuel : List Shape → Nat) (plans : Plans) : Plans := fun owner name args =>
  .need (fuel args) none (plans owner name args)

section Reserving
variable {plans : Plans} {fuel : List Shape → Nat}

theorem Plan.eval_reserving {n d : Nat} {answer : Callee → List Shape → Option Shape}
    {owner : Trait} {name : String} {args : List Shape} {s : Shape} :
    (plans.reserving fuel owner name args).eval n d answer = some s ↔
      fuel args ≤ n ∧ (plans owner name args).eval n d answer = some s := by
  simp [Plans.reserving, eval, Enough]

/-- Fuel put aside changes no value. -/
theorem Trait.eval_of_reserving {n d : Nat} {t : Trait} {args : List Shape} {s : Shape}
    (h : t.eval (plans.reserving fuel) n d args = some s) : t.eval plans n d args = some s := by
  induction n generalizing d t args s with
  | zero =>
    obtain ⟨hroom, hinside⟩ := eval_eq_some.mp h
    obtain ⟨receiver, rest, found, hargs, hfound, hplan⟩ := inside_eq_some.mp hinside
    refine eval_eq_some.mpr ⟨hroom, inside_eq_some.mpr ⟨receiver, rest, found, hargs, hfound, ?_⟩⟩
    refine Plan.eval_mono (Nat.le_refl _) (Nat.le_refl _) (fun callee us r hr => ?_) _
      (Plan.eval_reserving.mp hplan).2
    obtain ⟨_, _, hnone⟩ := Option.bind_eq_some_iff.mp hr
    cases hnone
  | succ n ih =>
    obtain ⟨hroom, hinside⟩ := eval_eq_some.mp h
    obtain ⟨receiver, rest, found, hargs, hfound, hplan⟩ := inside_eq_some.mp hinside
    refine eval_eq_some.mpr ⟨hroom, inside_eq_some.mpr ⟨receiver, rest, found, hargs, hfound, ?_⟩⟩
    refine Plan.eval_mono (Nat.le_refl _) (Nat.le_refl _) (fun callee us r hr => ?_) _
      (Plan.eval_reserving.mp hplan).2
    obtain ⟨u, hu, hr⟩ := Option.bind_eq_some_iff.mp hr
    exact Option.bind_eq_some_iff.mpr ⟨u, hu, ih hr⟩

/-- A plan has its value with one amount of fuel for all its calls. -/
theorem Plan.eval_reach {n d : Nat} {answer : Callee → List Shape → Option Shape}
    (answers : Nat → Callee → List Shape → Option Shape)
    (hmono : ∀ k k' callee args s, k ≤ k' → answers k callee args = some s →
      answers k' callee args = some s)
    (hanswer : ∀ callee args s, answer callee args = some s → ∃ k, answers k callee args = some s)
    (p : Plan) {s : Shape} (h : p.eval n d answer = some s) :
    ∃ k, p.eval k d (answers k) = some s := by
  have hlarger : ∀ k k' (p : Plan), k ≤ k' → p.eval k d (answers k) = some s →
      p.eval k' d (answers k') = some s := fun k k' p hk =>
    Plan.eval_mono hk (Nat.le_refl d) (fun callee args s => hmono k k' callee args s hk) p
  induction p with
  | done => exact ⟨0, h⟩
  | fail => cases h
  | call callee args next ih =>
    obtain ⟨r, hr, hnext⟩ := Option.bind_eq_some_iff.mp h
    obtain ⟨k, hk⟩ := hanswer callee args r hr
    obtain ⟨k', hk'⟩ := ih r hnext
    refine ⟨max k k', Option.bind_eq_some_iff.mpr ⟨r, ?_, ?_⟩⟩
    · exact hmono k _ callee args r (Nat.le_max_left k k') hk
    · exact hlarger k' _ (next r) (Nat.le_max_right k k') hk'
  | need needed room next ih =>
    rw [eval] at h
    split at h
    · next henough =>
      obtain ⟨k, hk⟩ := ih h
      refine ⟨max k needed, ?_⟩
      rw [eval, if_pos ⟨Nat.le_max_right k needed, henough.2⟩]
      exact hlarger k _ next (Nat.le_max_left k needed) hk
    · cases h

/-- With more fuel a call has its value although some is put aside in every call. -/
theorem Trait.eval_reserving (fuel : List Shape → Nat) {n d : Nat} {t : Trait} {args : List Shape} {s : Shape}
    (h : t.eval plans n d args = some s) :
    ∃ k, t.eval (plans.reserving fuel) k d args = some s := by
  induction n generalizing d t args s with
  | zero =>
    obtain ⟨hroom, hinside⟩ := eval_eq_some.mp h
    obtain ⟨receiver, rest, found, hargs, hfound, hplan⟩ := inside_eq_some.mp hinside
    refine ⟨fuel args, eval_eq_some.mpr
      ⟨hroom, inside_eq_some.mpr ⟨receiver, rest, found, hargs, hfound, ?_⟩⟩⟩
    refine Plan.eval_reserving.mpr ⟨Nat.le_refl _, ?_⟩
    refine Plan.eval_mono (Nat.zero_le _) (Nat.le_refl _) (fun callee us r hr => ?_) _ hplan
    obtain ⟨_, _, hnone⟩ := Option.bind_eq_some_iff.mp hr
    cases hnone
  | succ n ih =>
    obtain ⟨hroom, hinside⟩ := eval_eq_some.mp h
    obtain ⟨receiver, rest, found, hargs, hfound, hplan⟩ := inside_eq_some.mp hinside
    obtain ⟨k, hk⟩ : ∃ k, (plans found.owner found.name args).eval k (d + 1)
        (Frame.answers (plans.reserving fuel) k (d + 1) ⟨t, found.owner⟩) = some s := by
      refine Plan.eval_reach
        (fun k => Frame.answers (plans.reserving fuel) k (d + 1) ⟨t, found.owner⟩)
        (fun k k' callee us r hle hr => Frame.answers_mono hle hr) (fun callee us r hr => ?_) _ hplan
      obtain ⟨u, hu, hr⟩ := Option.bind_eq_some_iff.mp hr
      obtain ⟨k, hk⟩ := ih hr
      exact ⟨k + 1, Option.bind_eq_some_iff.mpr ⟨u, hu, hk⟩⟩
    refine ⟨max k (fuel args), eval_eq_some.mpr
      ⟨hroom, inside_eq_some.mpr ⟨receiver, rest, found, hargs, hfound, ?_⟩⟩⟩
    refine Plan.eval_reserving.mpr ⟨Nat.le_max_right _ _, ?_⟩
    exact Plan.eval_mono (Nat.le_max_left _ _) (Nat.le_refl _)
      (fun callee us r hr => Frame.answers_mono (Nat.le_max_left _ _) hr) _ hk

end Reserving

end OpenVariants

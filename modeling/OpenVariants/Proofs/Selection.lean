import OpenVariants.Proofs.Unifying

/-! Which rule of a list runs.

A rule looks at its patterns one after the other, and a list at its rules. Both go on as
long as something passes, and the first that does not pass ends it (`InTurn`, `FirstAt`).
So for a list, arguments and a world there is one outcome (`Rules.Selects`): the first rule
that unifies is selected, or an error in a rule before it stops the call, or no rule
unifies. Rules further back are not looked at, so it does not matter what they are. -/
namespace OpenVariants

/-! ### One after the other -/

/-- All of a list pass, one after the other, each in the world that the one before left. -/
inductive InTurn (pass : α → World → World → Prop) : List α → World → World → Prop where
  | nil (w : World) : InTurn pass [] w w
  | cons {x : α} {xs : List α} {w w₁ w' : World} (first : pass x w w₁)
      (rest : InTurn pass xs w₁ w') : InTurn pass (x :: xs) w w'

/-- Those before a position pass, and the one there ends the row. -/
def FirstAt (pass ends : α → World → World → Prop) (xs : List α) (i : Nat) (w w' : World) : Prop :=
  ∃ x w₁, xs[i]? = some x ∧ InTurn pass (xs.take i) w w₁ ∧ ends x w₁ w'

section
variable {pass ends : α → World → World → Prop} {x : α} {xs ys : List α} {w w' : World}

theorem inTurn_nil : InTurn pass [] w w' ↔ w' = w :=
  ⟨fun h => by cases h; rfl, fun h => h ▸ .nil w'⟩

theorem inTurn_cons :
    InTurn pass (x :: xs) w w' ↔ ∃ w₁, pass x w w₁ ∧ InTurn pass xs w₁ w' := by
  constructor
  · rintro (_ | ⟨first, rest⟩)
    exact ⟨_, first, rest⟩
  · rintro ⟨w₁, first, rest⟩
    exact .cons first rest

theorem not_firstAt_nil {i : Nat} : ¬FirstAt pass ends [] i w w' := by
  rintro ⟨x, w₁, hx, -⟩
  cases hx

theorem firstAt_zero : FirstAt pass ends (x :: xs) 0 w w' ↔ ends x w w' := by
  constructor
  · rintro ⟨y, w₁, hy, hturn, hends⟩
    cases hy
    cases hturn
    exact hends
  · exact fun h => ⟨x, w, rfl, .nil w, h⟩

theorem firstAt_succ {i : Nat} :
    FirstAt pass ends (x :: xs) (i + 1) w w' ↔
      ∃ w₁, pass x w w₁ ∧ FirstAt pass ends xs i w₁ w' := by
  constructor
  · rintro ⟨y, w₂, hy, hturn, hends⟩
    obtain ⟨w₁, first, rest⟩ := inTurn_cons.mp hturn
    exact ⟨w₁, first, y, w₂, hy, rest, hends⟩
  · rintro ⟨w₁, first, y, w₂, hy, rest, hends⟩
    exact ⟨y, w₂, hy, .cons first rest, hends⟩

theorem exists_firstAt_cons :
    (∃ i, FirstAt pass ends (x :: xs) i w w') ↔
      ends x w w' ∨ ∃ w₁, pass x w w₁ ∧ ∃ i, FirstAt pass ends xs i w₁ w' := by
  rw [← Nat.or_exists_add_one, firstAt_zero]
  simp only [firstAt_succ]
  constructor
  · rintro (h | ⟨i, w₁, hx, h⟩)
    · exact .inl h
    · exact .inr ⟨w₁, hx, i, h⟩
  · rintro (h | ⟨w₁, hx, i, h⟩)
    · exact .inl h
    · exact .inr ⟨i, w₁, hx, h⟩

/-- What comes after the position does not matter. -/
theorem FirstAt.append {i : Nat} (h : FirstAt pass ends xs i w w') :
    FirstAt pass ends (xs ++ ys) i w w' := by
  obtain ⟨x, w₁, hx, hturn, hends⟩ := h
  have hi : i < xs.length := (List.getElem?_eq_some_iff.mp hx).1
  refine ⟨x, w₁, ?_, ?_, hends⟩
  · rwa [List.getElem?_append_left hi]
  · rwa [List.take_append_of_le_length (Nat.le_of_lt hi)]

end

/-! ### One rule -/

/-- The patterns of a rule, each with the argument at its position; one that is not there is
null. -/
def Rule.positions (args : List Value) (rule : Rule) : List (Pattern × Value) :=
  rule.patterns.mapIdx fun i p => (p, (args[i]?).getD .null)

/-- The unification at a position comes to the result. -/
def UnifiesTo (P : Performer) (r : Except Stop Bool) (position : Pattern × Value)
    (w w' : World) : Prop :=
  unify P position.1 position.2 w = (r, w')

/-- Unification at positions in a row comes to `true` if all of them unify, and else to what
the first one comes to that does not. -/
def RowComesTo (P : Performer) (row : List (Pattern × Value)) :
    Except Stop Bool → World → World → Prop
  | .ok true, w, w' => InTurn (UnifiesTo P (.ok true)) row w w'
  | r, w, w' => ∃ i, FirstAt (UnifiesTo P (.ok true)) (UnifiesTo P r) row i w w'

theorem rowComesTo_nil {P : Performer} {r : Except Stop Bool} {w w' : World} :
    RowComesTo P [] r w w' ↔ r = .ok true ∧ w' = w := by
  rcases r with stop | _ | _ <;> simp [RowComesTo, inTurn_nil, not_firstAt_nil]

theorem rowComesTo_cons {P : Performer} {q : Pattern × Value} {row : List (Pattern × Value)}
    {r : Except Stop Bool} {w w' : World} :
    RowComesTo P (q :: row) r w w' ↔
      (∃ w₁, UnifiesTo P (.ok true) q w w₁ ∧ RowComesTo P row r w₁ w') ∨
        r ≠ .ok true ∧ UnifiesTo P r q w w' := by
  rcases r with stop | _ | _ <;> simp [RowComesTo, inTurn_cons, exists_firstAt_cons, or_comm]

theorem unifyItems_row {P : Performer} {row : List (Pattern × Value)} {r : Except Stop Bool}
    {w w' : World} :
    unifyItems P (row.map (·.1)) (row.map fun q => pure q.2) w = (r, w') ↔
      RowComesTo P row r w w' := by
  induction row generalizing w with
  | nil =>
    simp only [List.map_nil, unifyItems, Run.pure_eq_iff, rowComesTo_nil]
  | cons q row ih =>
    simp only [List.map_cons, unifyItems, pure_bind, Run.ite_eq_iff, ih, rowComesTo_cons, UnifiesTo]

/-- What a rule comes to on arguments. -/
def Rule.ComesTo (P : Performer) (args : List Value) (r : Except Stop Bool) (rule : Rule) :
    World → World → Prop :=
  RowComesTo P (rule.positions args) r

theorem Rule.matches_iff {P : Performer} {args : List Value} {rule : Rule} {r : Except Stop Bool}
    {w w' : World} : rule.matches P args w = (r, w') ↔ rule.ComesTo P args r w w' := by
  have hpatterns : (rule.positions args).map (·.1) = rule.patterns :=
    List.ext_getElem (by simp [positions]) fun i _ _ => by simp [positions]
  have hreads : (rule.positions args).map (fun q => (pure q.2 : Run Value)) =
      rule.patterns.mapIdx fun i _ => pure ((args[i]?).getD .null) :=
    List.ext_getElem (by simp [positions]) fun i _ _ => by simp [positions]
  rw [ComesTo, ← unifyItems_row, hpatterns, hreads, Rule.matches]

theorem Rule.comesTo_iff {P : Performer} {args : List Value} {rule : Rule}
    {r r₁ : Except Stop Bool} {w w' w₁ : World} (hrun : rule.matches P args w = (r₁, w₁)) :
    rule.ComesTo P args r w w' ↔ r = r₁ ∧ w' = w₁ := by
  rw [← matches_iff, hrun]
  constructor
  · intro h
    cases h
    exact ⟨rfl, rfl⟩
  · rintro ⟨rfl, rfl⟩
    rfl

/-! ### A list of rules -/

inductive Selection where
  /-- The rule at an index is to run. -/
  | rule (index : Nat)
  /-- An error arose before a rule unified. -/
  | stop (stop : Stop)
  /-- No rule unifies. -/
  | nothing

/-- The selection from a list after one more rule was put in front. -/
def Selection.later : Selection → Selection
  | rule i => rule (i + 1)
  | s => s

/-- What selection gives to a call. -/
def Selection.result (rules : List Rule) : Selection → Except Stop (Option Rule)
  | .rule i => .ok rules[i]?
  | .stop s => .error s
  | .nothing => .ok none

namespace Rules

/-- What a list of rules selects: the first rule that unifies, if no error stops it there. -/
def Selects (P : Performer) (args : List Value) (rules : List Rule) :
    Selection → World → World → Prop
  | .rule i, w, w' =>
    FirstAt (Rule.ComesTo P args (.ok false)) (Rule.ComesTo P args (.ok true)) rules i w w'
  | .stop stop, w, w' =>
    ∃ i, FirstAt (Rule.ComesTo P args (.ok false)) (Rule.ComesTo P args (.error stop)) rules i w w'
  | .nothing, w, w' => InTurn (Rule.ComesTo P args (.ok false)) rules w w'

section
variable {P : Performer} {args : List Value} {rule : Rule} {rules rest more : List Rule}
  {s : Selection} {w w₁ w' : World}

theorem selects_nil : Selects P args [] s w w' ↔ s = .nothing ∧ w' = w := by
  cases s <;> simp [Selects, not_firstAt_nil, inTurn_nil]

theorem selects_cons_unifies (hrun : rule.matches P args w = (.ok true, w₁)) :
    Selects P args (rule :: rest) s w w' ↔ s = .rule 0 ∧ w' = w₁ := by
  rcases s with (_ | i) | stop | _ <;>
    simp [Selects, firstAt_zero, firstAt_succ, exists_firstAt_cons, inTurn_cons,
      Rule.comesTo_iff hrun]

theorem selects_cons_stops {stop : Stop} (hrun : rule.matches P args w = (.error stop, w₁)) :
    Selects P args (rule :: rest) s w w' ↔ s = .stop stop ∧ w' = w₁ := by
  rcases s with (_ | i) | stop' | _ <;>
    simp [Selects, firstAt_zero, firstAt_succ, exists_firstAt_cons, inTurn_cons,
      Rule.comesTo_iff hrun]

theorem selects_cons_mismatch (hrun : rule.matches P args w = (.ok false, w₁)) :
    Selects P args (rule :: rest) s w w' ↔
      ∃ next, Selects P args rest next w₁ w' ∧ s = next.later := by
  have hcomes : ∀ r w₂, rule.ComesTo P args r w w₂ ↔ r = .ok false ∧ w₂ = w₁ := fun r w₂ =>
    Rule.comesTo_iff hrun
  constructor
  · intro h
    rcases s with (_ | i) | stop | _
    · simp [Selects, firstAt_zero, hcomes] at h
    · exact ⟨.rule i, by simpa [Selects, firstAt_succ, hcomes] using h, rfl⟩
    · exact ⟨.stop stop, by simpa [Selects, exists_firstAt_cons, hcomes] using h, rfl⟩
    · exact ⟨.nothing, by simpa [Selects, inTurn_cons, hcomes] using h, rfl⟩
  · rintro ⟨next, h, rfl⟩
    cases next with
    | rule i => simpa [Selects, Selection.later, firstAt_succ, hcomes] using h
    | stop stop => simpa [Selects, Selection.later, exists_firstAt_cons, hcomes] using h
    | nothing => simpa [Selects, Selection.later, inTurn_cons, hcomes] using h

/-- A list of rules selects one thing. -/
theorem existsUnique_selects (P : Performer) (args : List Value) (rules : List Rule) (w : World) :
    ∃! out : Selection × World, Selects P args rules out.1 w out.2 := by
  induction rules generalizing w with
  | nil =>
    exact ⟨(.nothing, w), selects_nil.mpr ⟨rfl, rfl⟩,
      fun out h => Prod.ext_iff.mpr (selects_nil.mp h)⟩
  | cons rule rest ih =>
    rcases hrun : rule.matches P args w with ⟨stop | _ | _, w₁⟩
    · exact ⟨(.stop stop, w₁), (selects_cons_stops hrun).mpr ⟨rfl, rfl⟩,
        fun out h => Prod.ext_iff.mpr ((selects_cons_stops hrun).mp h)⟩
    · obtain ⟨⟨next, w'⟩, hnext, hunique⟩ := ih w₁
      refine ⟨(next.later, w'), (selects_cons_mismatch hrun).mpr ⟨next, hnext, rfl⟩, ?_⟩
      rintro ⟨s, w₂⟩ h
      obtain ⟨next', hnext', rfl⟩ := (selects_cons_mismatch hrun).mp h
      cases hunique (next', w₂) hnext'
      rfl
    · exact ⟨(.rule 0, w₁), (selects_cons_unifies hrun).mpr ⟨rfl, rfl⟩,
        fun out h => Prod.ext_iff.mpr ((selects_cons_unifies hrun).mp h)⟩

theorem Selects.select (h : Selects P args rules s w w') :
    Rules.select P args rules w = (s.result rules, w') := by
  induction rules generalizing s w with
  | nil =>
    obtain ⟨rfl, rfl⟩ := selects_nil.mp h
    rfl
  | cons rule rest ih =>
    rw [Rules.select, Run.bind_apply]
    rcases hrun : rule.matches P args w with ⟨stop | _ | _, w₁⟩
    · obtain ⟨rfl, rfl⟩ := (selects_cons_stops hrun).mp h
      rfl
    · obtain ⟨next, hnext, rfl⟩ := (selects_cons_mismatch hrun).mp h
      refine (ih hnext).trans ?_
      cases next <;> rfl
    · obtain ⟨rfl, rfl⟩ := (selects_cons_unifies hrun).mp h
      rfl

/-- Rules further back change nothing. -/
theorem Selects.append (h : Selects P args rules s w w') (hs : s ≠ .nothing) :
    Selects P args (rules ++ more) s w w' := by
  cases s with
  | rule i => exact FirstAt.append h
  | stop stop =>
    obtain ⟨i, h⟩ := h
    exact ⟨i, h.append⟩
  | nothing => exact absurd rfl hs

end

/-! ### Lists that are accepted -/

theorem checkArities_ok {expected index : Nat} {rules : List Rule} :
    checkArities expected index rules = .ok () ↔
      ∀ rule ∈ rules, rule.patterns.length ≠ 0 ∧ rule.patterns.length = expected := by
  induction rules generalizing index with
  | nil => simp [checkArities]
  | cons rule rest ih =>
    rw [checkArities, List.forall_mem_cons]
    split_ifs with hempty hother
    · simp [hempty]
    · simp [hother]
    · exact ih.trans (and_iff_right ⟨hempty, not_not.mp hother⟩).symm

theorem ofList_ok {rules : List Rule} {list : Rules} :
    ofList rules = .ok list ↔
      list = ⟨rules⟩ ∧ rules ≠ [] ∧ ∀ rule ∈ rules,
        rule.patterns.length ≠ 0 ∧ rule.patterns.length = (Rules.mk rules).arity := by
  cases rules with
  | nil => simp [ofList]
  | cons first rest =>
    have harity : (Rules.mk (first :: rest)).arity = first.patterns.length := rfl
    rw [harity, ← checkArities_ok, ofList]
    cases checkArities first.patterns.length 0 (first :: rest) with
    | error fault => simp
    | ok => simp [eq_comm]

theorem ofList_append {rules more : List Rule} {list : Rules} (h : ofList rules = .ok list)
    (hmore : ∀ rule ∈ more, rule.patterns.length = list.arity) :
    ofList (rules ++ more) = .ok ⟨rules ++ more⟩ := by
  obtain ⟨rfl, hne, hrules⟩ := ofList_ok.mp h
  obtain ⟨first, rest, rfl⟩ := List.exists_cons_of_ne_nil hne
  refine ofList_ok.mpr ⟨rfl, by simp, List.forall_mem_append.mpr ⟨hrules, fun rule hrule => ?_⟩⟩
  have hfirst := (hrules first List.mem_cons_self).1
  rw [hmore rule hrule]
  exact ⟨hfirst, rfl⟩

/-! ### Calls -/

/-- What a case of rules does with what is selected. -/
theorem Selects.run {P : Performer} {args : List Value} {rules : List Rule} {s : Selection}
    {w w' : World} (h : Selects P args rules s w w') (frame : Frame) (name : String) :
    (Case.rules ⟨rules⟩).run P frame name args w =
      match s.result rules with
      | .ok (some rule) => (rule.handler args).run P (some frame) w'
      | .ok none =>
        (.error (.fault (.dispatch (.noRule frame.invoked.name name
          (w'.heap.written (args.head?.getD .null))))), w')
      | .error stop => (.error stop, w') := by
  rw [Case.run, Run.bind_apply, h.select]
  rcases s.result rules with stop | _ | rule <;> rfl

/-- With rules further back a call does the same, if the list does not end without a rule. -/
theorem Selects.run_append {P : Performer} {args : List Value} {rules more : List Rule}
    {s : Selection} {w w' : World} (h : Selects P args rules s w w') (hs : s ≠ .nothing)
    (frame : Frame) (name : String) :
    (Case.rules ⟨rules ++ more⟩).run P frame name args w =
      (Case.rules ⟨rules⟩).run P frame name args w := by
  have hresult : s.result (rules ++ more) = s.result rules := by
    cases s with
    | rule i =>
      obtain ⟨rule, w₁, hrule, -⟩ := h
      have hi : i < rules.length := (List.getElem?_eq_some_iff.mp hrule).1
      exact congrArg Except.ok (List.getElem?_append_left hi)
    | stop stop => rfl
    | nothing => exact absurd rfl hs
  rw [h.run, (h.append hs).run, hresult]

/-- **The first rule that matches wins.** For a list of rules that is accepted, any arguments
and any world there is one selection, and it decides the call, whatever lazies are forced on
the way.

* If the rule at an index is selected, the patterns of that rule unify with the arguments at
  their positions, none of the rules before it unified, and its handler runs on the
  arguments as they were given. A missing argument stands for null, and a surplus one is not
  looked at.
* If unification stops with an error before a rule unified, that error is the result.
* If each rule failed to unify without an error, and only then, the list itself reports that
  no rule matches.

With further rules of the same number of patterns behind them the list is accepted as well,
and the call does the same in the first two cases. -/
theorem first_match_wins {rules : List Rule} {list : Rules} (hlist : ofList rules = .ok list)
    (P : Performer) (frame : Frame) (name : String) (args : List Value) (w : World) :
    (∃! out : Selection × World, Selects P args rules out.1 w out.2) ∧
      (∀ i w', Selects P args rules (.rule i) w w' → ∃ rule, rules[i]? = some rule ∧
        (Case.rules list).run P frame name args w =
          (rule.handler args).run P (some frame) w') ∧
      (∀ stop w', Selects P args rules (.stop stop) w w' →
        (Case.rules list).run P frame name args w = (.error stop, w')) ∧
      (∀ w', Selects P args rules .nothing w w' →
        (Case.rules list).run P frame name args w =
          (.error (.fault (.dispatch (.noRule frame.invoked.name name
            (w'.heap.written (args.head?.getD .null))))), w')) ∧
      ∀ more : List Rule, (∀ rule ∈ more, rule.patterns.length = list.arity) →
        ∃ longer, ofList (rules ++ more) = .ok longer ∧
          ∀ s w', s ≠ .nothing → Selects P args rules s w w' →
            Selects P args (rules ++ more) s w w' ∧
              (Case.rules longer).run P frame name args w =
                (Case.rules list).run P frame name args w := by
  obtain ⟨rfl, -, -⟩ := ofList_ok.mp hlist
  refine ⟨existsUnique_selects P args rules w, fun i w' h => ?_, fun stop w' h => ?_,
    fun w' h => ?_, fun more hmore => ?_⟩
  · have hrun := h.run frame name
    obtain ⟨rule, w₁, hrule, -⟩ := h
    refine ⟨rule, hrule, ?_⟩
    rw [hrun, Selection.result, hrule]
  · exact h.run frame name
  · exact h.run frame name
  · exact ⟨⟨rules ++ more⟩, ofList_append hlist hmore, fun s w' hs h =>
      ⟨h.append hs, h.run_append hs frame name⟩⟩

/-! ### Fewer arguments than patterns, and more -/

/-- A rule for the numbers 1 and 2, and one for null in the second place. The first one gives
the third argument, the other one says whether there is just one. -/
def pairRules : List Rule :=
  [⟨[.literal (.int 1), .literal (.int 2)], fun args => pure ((args[2]?).getD .null)⟩,
    ⟨[.wildcard, .literal .null], fun args => pure (.bool (args.length == 1))⟩]

/-- A trait that chooses between the rules. -/
def pairing : Trait := ⟨⟨0, "pairing", none, [(wildcard, .rules ⟨pairRules⟩)], none, 512⟩, []⟩

/-- For the number 1 alone the second rule runs: null is what is matched in the second place,
but the rule is given one argument. With three the first rule runs, and is given all three. -/
theorem pairing_calls :
    (pairing.call performAll [.int 1] {}).1 = .ok (.bool true) ∧
      (pairing.call performAll [.int 1, .int 2, .text "third"] {}).1 = .ok (.text "third") := by
  have hlist : ofList pairRules = .ok ⟨pairRules⟩ := rfl
  let w : World := {nesting := Nesting.inside {}}
  have hcall (rest : List Value) : (pairing.call performAll (.int 1 :: rest) {}).1 =
      ((Case.rules ⟨pairRules⟩).run performAll ⟨pairing, pairing⟩ wildcard (.int 1 :: rest) w).1 :=
    rfl
  have hfirst : Selects performAll [.int 1, .int 2, .text "third"] pairRules (.rule 0) w w :=
    firstAt_zero.mpr (.cons rfl (.cons rfl (.nil w)))
  have hsecond : Selects performAll [.int 1] pairRules (.rule 1) w w := by
    refine firstAt_succ.mpr ⟨w, ⟨1, firstAt_succ.mpr ⟨w, rfl, firstAt_zero.mpr rfl⟩⟩, ?_⟩
    exact firstAt_zero.mpr (.cons rfl (.cons rfl (.nil w)))
  refine ⟨(hcall _).trans ?_, (hcall _).trans ?_⟩
  · obtain ⟨-, hrule, -⟩ := first_match_wins hlist performAll ⟨pairing, pairing⟩ wildcard [.int 1] w
    obtain ⟨rule, hget, hrun⟩ := hrule 1 w hsecond
    cases hget
    exact congrArg Prod.fst hrun
  · obtain ⟨-, hrule, -⟩ := first_match_wins hlist performAll ⟨pairing, pairing⟩ wildcard
      [.int 1, .int 2, .text "third"] w
    obtain ⟨rule, hget, hrun⟩ := hrule 0 w hfirst
    cases hget
    exact congrArg Prod.fst hrun

end Rules

end OpenVariants

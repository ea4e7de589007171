import OpenVariants.Proofs.Lists

/-! Concatenation of lists.

A trait joins lists by rules: an empty list and another one give the other one, and a list
with a head gives that head before what its tail and the other one give. So a call on a list
of some integers nests one call for each of them. If the limit of the registry allows for
that, the result is the list of all the integers in order, hence the very instance that is
built of them at any other time while it lives; if not, the call fails and changes nothing
(`Holder.Reachable.concat_appends`). -/
namespace OpenVariants

/-! ### The trait -/

/-- What concatenation does with an empty list and with one that has a head. -/
def concatCases (cons : Variant) : List (String × Case) :=
  [("Nil", .handler fun args => pure ((args[1]?).getD .null)),
    ("Cons", .rules ⟨[Scenario.consRule cons]⟩)]

/-- Concatenation, as it is defined for the data of lists. -/
def concatTrait (id : TraitId) (d : Data) (cons : Variant) (maxDepth : Nat) : Trait :=
  Trait.candidate id "concat" (some d) none (concatCases cons) maxDepth

section Defining
variable {d : Data} {r : RegistryId} {nil cons : Variant} {empty : ObjectId}

theorem Data.OfLists.definable (h : d.OfLists r nil cons empty) :
    Trait.Definable (some d) none ["Nil", "Cons"] where
  shaped := by
    intro name hname
    refine .inr (Text.isCapitalized_iff.mp ?_)
    rcases List.mem_pair.mp hname with rfl | rfl
    · decide
    · decide
  known := by
    intro name hname d' hd'
    cases hd'
    rw [h.variantNames_eq]
    exact .inr hname
  distinct := by decide
  covered := by
    intro d' hd'
    cases hd'
    rw [h.variantNames_eq]
    exact .inr fun variant hvariant => ⟨_, List.mem_cons_self, hvariant⟩

/-- Concatenation can be defined in any registry. -/
theorem Data.OfLists.defineConcat_eq (h : d.OfLists r nil cons empty) (i : RegistryId) (w : World) :
    Scenario.defineConcat i d w =
      (.ok w.traits.size, (w.addTrait
        (concatTrait w.traits.size d cons (registryConfig i w).maxDepth)).2) := by
  have hrules : Rules.ofList [Scenario.consRule cons] = .ok ⟨[Scenario.consRule cons]⟩ := rfl
  have hcases : Trait.Definable (some d) none ((concatCases cons).map (·.1)) := h.definable
  have hdefine : defineTrait i "concat" (some d) none (concatCases cons) w =
      (.ok w.traits.size, _) := defineTrait_of_ok hcases.define_eq
  simp only [Scenario.defineConcat, Run.bind_apply, Run.lift_apply, h.variant_cons, hrules]
  exact hdefine

end Defining

/-! ### One call -/

section Calling
variable {id : TraitId} {d : Data} {cons : Variant} {maxDepth : Nat} {w : World} {u v : Value}
  {tag : Tag} {values : List Value}

theorem concatTrait_call (P : Performer) (args : List Value) :
    (concatTrait id d cons maxDepth).call P (u :: args) =
      (concatTrait id d cons maxDepth).guarded
        ((concatTrait id d cons maxDepth).dispatch P u (u :: args)) := rfl

/-- An empty list is followed by the other list alone. -/
theorem dispatch_nil (hinst : w.heap.instance? u = some (tag, values)) (hname : tag.name = "Nil")
    (P : Performer) :
    (concatTrait id d cons maxDepth).dispatch P u [u, v] w = (.ok v, w) := by
  have hresolve : (concatTrait id d cons maxDepth).resolve? "Nil" =
      some ⟨concatTrait id d cons maxDepth, "Nil",
        .handler fun args => pure ((args[1]?).getD .null)⟩ := rfl
  rw [Trait.dispatch_eq]
  simp only [World.receiver, hinst, Receiver.caseName, hname, hresolve]
  rfl

/-- A list with a head is a case for the rule. -/
theorem dispatch_cons (hinst : w.heap.instance? u = some (tag, values)) (hname : tag.name = "Cons")
    (P : Performer) :
    (concatTrait id d cons maxDepth).dispatch P u [u, v] w =
      ((Scenario.consRule cons).handler [u, v]).run P
        (some ⟨concatTrait id d cons maxDepth, concatTrait id d cons maxDepth⟩) w := by
  have hresolve : (concatTrait id d cons maxDepth).resolve? "Cons" =
      some ⟨concatTrait id d cons maxDepth, "Cons", .rules ⟨[Scenario.consRule cons]⟩⟩ := rfl
  have hselect : Rules.select P [u, v] [Scenario.consRule cons] w =
      (.ok (some (Scenario.consRule cons)), w) := by
    simp only [Rules.select, Rule.matches, Scenario.consRule, List.mapIdx_cons, List.mapIdx_nil,
      unifyItems, unify, Run.bind_apply, Run.pure_apply, if_true]
  rw [Trait.dispatch_eq]
  simp only [World.receiver, hinst, Receiver.caseName, hname, hresolve, Case.run, Run.bind_apply,
    hselect]

/-! ### The rule for a list with a head -/

section Rule
variable {i j : ObjectId} {x : Int64} {frame : Frame} {m : Nat} {w₁ : World}

/-- A field of such a list is what is stored there. -/
theorem run_receiverField (hfields : tag.fields = ["head", "tail"])
    (hinst : w.heap.instance? (.inst i) = some (tag, [.int x, .inst j])) (rest : List Value) :
    (Scenario.receiverField (.inst i :: rest) "head").run (perform (m + 1)) (some frame) w =
        (.ok (.int x), w) ∧
      (Scenario.receiverField (.inst i :: rest) "tail").run (perform (m + 1)) (some frame) w =
        (.ok (.inst j), w) := by
  have hhead : tag.fieldIndex? "head" = some 0 := by rw [Tag.fieldIndex?, hfields]; rfl
  have htail : tag.fieldIndex? "tail" = some 1 := by rw [Tag.fieldIndex?, hfields]; rfl
  exact ⟨run_readField hinst hhead rfl m (some frame), run_readField hinst htail rfl m (some frame)⟩

theorem run_recur (args : List Value) :
    (Program.perform (.recur args)).run (perform (m + 1)) (some frame) w =
      frame.invoked.call (perform m) args w := by
  have hperform : perform (m + 1) (some frame) (.recur args) = frame.invoked.call (perform m) args :=
    rfl
  simp only [Program.perform, Program.run, hperform]
  rcases frame.invoked.call (perform m) args w with ⟨(_ | _) | _, _⟩ <;> rfl

/-- The rule comes to what the call on the tail comes to, with the head before it. -/
theorem run_consRule (hfields : tag.fields = ["head", "tail"])
    (hinst : w.heap.instance? (.inst i) = some (tag, [.int x, .inst j])) {rest z : Value}
    (hcall : frame.invoked.call (perform m) [.inst j, v] w = (.ok rest, w₁))
    (hinst₁ : w₁.heap.instance? (.inst i) = some (tag, [.int x, .inst j])) {w₂ : World}
    (hconstruct : cons.construct [.int x, rest] w₁ = (.ok z, w₂)) :
    ((Scenario.consRule cons).handler [.inst i, v]).run (perform (m + 1)) (some frame) w =
      (.ok z, w₂) := by
  have hbuild : (Program.perform (.construct cons [.int x, rest])).run (perform (m + 1))
      (some frame) w₁ = (.ok z, w₂) := by
    simp only [Program.perform, Program.run, perform, answering, hconstruct]
    rfl
  have hsecond : ([Value.inst i, v][1]?).getD .null = v := rfl
  rw [Scenario.consRule, Program.run_bind, Run.bind_apply, (run_receiverField hfields hinst _).2]
  dsimp only
  rw [Program.run_bind, Run.bind_apply, run_recur, hsecond, hcall]
  dsimp only
  rw [Program.run_bind, Run.bind_apply, (run_receiverField hfields hinst₁ _).1]
  exact hbuild

/-- A failure of the call on the tail is a failure of the rule. -/
theorem run_consRule_error (hfields : tag.fields = ["head", "tail"])
    (hinst : w.heap.instance? (.inst i) = some (tag, [.int x, .inst j])) {stop : Stop}
    (hcall : frame.invoked.call (perform m) [.inst j, v] w = (.error stop, w₁)) :
    ((Scenario.consRule cons).handler [.inst i, v]).run (perform (m + 1)) (some frame) w =
      (.error stop, w₁) := by
  have hsecond : ([Value.inst i, v][1]?).getD .null = v := rfl
  rw [Scenario.consRule, Program.run_bind, Run.bind_apply, (run_receiverField hfields hinst _).2]
  dsimp only
  rw [Program.run_bind, Run.bind_apply, run_recur, hsecond, hcall]

end Rule

end Calling

/-! ### All calls -/

namespace Holder

section Joining
variable {k k' : Holder} {d : Data} {nil cons : Variant} {empty : ObjectId} {id : TraitId}
  {maxDepth n : Nat} {xs ys : List Int64} {u v : Value}

/-- A program with its calls nested otherwise. -/
def withNesting (k : Holder) (nesting : Nesting) : Holder :=
  k.withWorld {k.world with nesting}

theorem Sound.step_withNesting (hs : k.Sound) (nesting : Nesting) :
    Step k (k.withNesting nesting) := hs.other rfl rfl rfl

/-- After a call is after what it did inside. -/
theorem Later.outside {nesting : Nesting} (hk : k.Reachable) (hl : (k.withNesting nesting).Later k') :
    k.Later (k'.withNesting k.world.nesting) where
  steps := by
    have hinside : Steps k k' := (Relation.ReflTransGen.single
      (hk.sound.step_withNesting nesting)).trans hl.steps
    exact hinside.tail ((hk.sound.steps hinside).step_withNesting _)
  extends_ := hl.extends_
  held := by
    rw [hl.held]
    rfl
  nesting := rfl
  fixed := hl.fixed

theorem HasLists.withNesting (h : k.HasLists d nil cons empty) (nesting : Nesting) :
    (k.withNesting nesting).HasLists d nil cons empty where
  reachable := h.reachable.tail (h.reachable.sound.step_withNesting nesting)
  held := h.held
  data := h.data
  spare := h.spare

/-- The call on the empty list and another gives the other one, and changes nothing. -/
theorem HasLists.call_empty (h : k.HasLists d nil cons empty)
    (hstart : ¬maxDepth ≤ k.world.nesting.current) (P : Performer) (v : Value) :
    (concatTrait id d cons maxDepth).call P [.inst empty, v] k.world = (.ok v, k.world) := by
  have hinst : (k.withNesting k.world.nesting.inside).world.heap.instance? (.inst empty) =
      some (nil.tag, []) := h.empty_inst
  rw [concatTrait_call]
  exact Trait.guarded_eq _ _ k.world (k.withNesting k.world.nesting.inside).world _ hstart
    (dispatch_nil hinst h.data.names.1 P) rfl

/-- With room for a call for each integer of the first list, the call on two lists gives the
list of the integers of both. -/
theorem HasLists.call_joins (h : k.HasLists d nil cons empty)
    (hu : k.world.heap.IsListOf empty cons.tag xs u) (hv : k.world.heap.IsListOf empty cons.tag ys v)
    (hroom : k.world.nesting.current + xs.length < maxDepth) (hn : xs.length ≤ n) :
    ∃ z k', (concatTrait id d cons maxDepth).call (perform n) [u, v] k.world = (.ok z, k'.world) ∧
      k.Later k' ∧ k'.world.heap.IsListOf empty cons.tag (xs ++ ys) z := by
  induction xs generalizing k u n with
  | nil =>
    have hu : u = .inst empty := hu
    subst hu
    exact ⟨v, k, h.call_empty (Nat.not_le_of_lt hroom) _ v, .refl k, hv⟩
  | cons x xs ih =>
    obtain ⟨tail, hinst, htail⟩ := hu
    obtain ⟨i, rfl, ho⟩ := Heap.instance?_eq_some.mp hinst
    obtain ⟨j, rfl⟩ := htail.exists_inst
    obtain ⟨m, rfl⟩ : ∃ m, n = m + 1 := Nat.exists_eq_add_of_le' (Nat.le_trans (by simp) hn)
    -- Inside the call one more is active, and the tail is shorter by one.
    have hinside := h.withNesting k.world.nesting.inside
    have hcurrent : (k.withNesting k.world.nesting.inside).world.nesting.current =
        k.world.nesting.current + 1 := Nesting.current_inside _
    rw [List.length_cons] at hroom hn
    have hstart : ¬maxDepth ≤ k.world.nesting.current := by omega
    obtain ⟨rest, k₂, hcall, hl₂, hrest⟩ := @ih _ m _ hinside htail hv (by omega) (by omega)
    have hinst₂ : k₂.world.heap.instance? (.inst i) = some (cons.tag, [.int x, .inst j]) :=
      Heap.instance?_inst.mpr (hl₂.extends_ i _ ho)
    obtain ⟨z, k₃, hconstruct, hl₃, hz⟩ := (hinside.later hl₂).construct x hrest
    have hl := hl₂.trans hl₃
    have hinst₁ : (k.withNesting k.world.nesting.inside).world.heap.instance? (.inst i) =
        some (cons.tag, [.int x, .inst j]) := hinst
    have hbody : (concatTrait id d cons maxDepth).dispatch (perform (m + 1)) (.inst i) [.inst i, v]
        (k.withNesting k.world.nesting.inside).world = (.ok z, k₃.world) :=
      (dispatch_cons hinst₁ h.data.names.2 _).trans
        (run_consRule h.data.fields.2 hinst₁ hcall hinst₂ hconstruct)
    refine ⟨z, k₃.withNesting k.world.nesting, ?_, hl.outside h.reachable, hz⟩
    rw [concatTrait_call]
    exact Trait.guarded_eq _ _ k.world _ _ hstart hbody hl.nesting

/-- Without room for a call for each integer of the first list and one more, the call on two
lists fails, and nothing changes. -/
theorem HasLists.call_refused (h : k.HasLists d nil cons empty)
    (hu : k.world.heap.IsListOf empty cons.tag xs u)
    (hfull : maxDepth ≤ k.world.nesting.current + xs.length)
    (hn : maxDepth ≤ k.world.nesting.current + n) :
    (concatTrait id d cons maxDepth).call (perform n) [u, v] k.world =
      (.error (.fault (.dispatch (.recursionLimit "concat" maxDepth))), k.world) := by
  induction xs generalizing k u n with
  | nil => exact Trait.guarded_full hfull _
  | cons x xs ih =>
    by_cases hstart : maxDepth ≤ k.world.nesting.current
    · exact Trait.guarded_full hstart _
    · obtain ⟨tail, hinst, htail⟩ := hu
      obtain ⟨i, rfl, ho⟩ := Heap.instance?_eq_some.mp hinst
      obtain ⟨j, rfl⟩ := htail.exists_inst
      obtain ⟨m, rfl⟩ : ∃ m, n = m + 1 := Nat.exists_eq_add_of_le' (by omega)
      have hinside := h.withNesting k.world.nesting.inside
      have hcurrent : (k.withNesting k.world.nesting.inside).world.nesting.current =
          k.world.nesting.current + 1 := Nesting.current_inside _
      rw [List.length_cons] at hfull
      have hcall := @ih _ m _ hinside htail (by omega) (by omega)
      have hinst₁ : (k.withNesting k.world.nesting.inside).world.heap.instance? (.inst i) =
          some (cons.tag, [.int x, .inst j]) := hinst
      have hbody : (concatTrait id d cons maxDepth).dispatch (perform (m + 1)) (.inst i)
          [.inst i, v] (k.withNesting k.world.nesting.inside).world =
            (.error (.fault (.dispatch (.recursionLimit "concat" maxDepth))),
              (k.withNesting k.world.nesting.inside).world) :=
        (dispatch_cons hinst₁ h.data.names.2 _).trans
          (run_consRule_error h.data.fields.2 hinst₁ hcall)
      rw [concatTrait_call]
      exact Trait.guarded_eq _ _ k.world (k.withNesting k.world.nesting.inside).world _ hstart
        hbody rfl

end Joining

/-! ### Concatenation is append -/

/-- What lists and their concatenation come to in a program outside of any call. -/
structure Concatenates (k : Holder) (id : TraitId) (empty : ObjectId) (cons : Variant)
    (maxDepth : Nat) : Prop where
  builds : ∀ xs, ∃ v w, Scenario.listOf (.inst empty) cons xs k.world = (.ok v, w) ∧
    k.Later (k.withWorld w) ∧ w.heap.IsListOf empty cons.tag xs v
  /-- As long as it lives, the result is the instance that is built of all the integers. -/
  joins : ∀ n xs ys u v, k.world.heap.IsListOf empty cons.tag xs u →
    k.world.heap.IsListOf empty cons.tag ys v → xs.length < maxDepth → xs.length < n →
    ∃ z w, perform n none (.call id [u, v]) k.world = (.ok z, w) ∧ k.Later (k.withWorld w) ∧
      w.heap.IsListOf empty cons.tag (xs ++ ys) z ∧
      ∀ k', Steps (k.withWorld w) k' → k'.world.heap.holds z = true →
        Scenario.listOf (.inst empty) cons (xs ++ ys) k'.world = (.ok z, k'.world)
  refuses : ∀ n xs u v, k.world.heap.IsListOf empty cons.tag xs u → maxDepth ≤ xs.length →
    maxDepth < n → perform n none (.call id [u, v]) k.world =
      (.error (.fault (.dispatch (.recursionLimit "concat" maxDepth))), k.world)
  /-- Three lists come to one instance in both orders, unless the first two are too long
  together to be a first list. -/
  associates : ∀ n xs ys zs u v s, k.world.heap.IsListOf empty cons.tag xs u →
    k.world.heap.IsListOf empty cons.tag ys v → k.world.heap.IsListOf empty cons.tag zs s →
    xs.length < maxDepth → ys.length < maxDepth → (xs ++ ys).length < n →
    ∃ t q p w₁ w₂ w₃, perform n none (.call id [v, s]) k.world = (.ok t, w₁) ∧
      perform n none (.call id [u, t]) w₁ = (.ok q, w₂) ∧
      perform n none (.call id [u, v]) w₂ = (.ok p, w₃) ∧
      ((xs ++ ys).length < maxDepth → ∃ w, perform n none (.call id [p, s]) w₃ = (.ok q, w)) ∧
      (maxDepth ≤ (xs ++ ys).length → perform n none (.call id [p, s]) w₃ =
        (.error (.fault (.dispatch (.recursionLimit "concat" maxDepth))), w₃))
  unit : ∀ n xs u, k.world.heap.IsListOf empty cons.tag xs u → xs.length < maxDepth →
    xs.length < n → perform n none (.call id [.inst empty, u]) k.world = (.ok u, k.world) ∧
      ∃ w, perform n none (.call id [u, .inst empty]) k.world = (.ok u, w)

/-- A program outside of any call, with lists and their concatenation. -/
structure Ready (k : Holder) (d : Data) (nil cons : Variant) (empty : ObjectId) (id : TraitId)
    (maxDepth : Nat) : Prop extends HasLists k d nil cons empty where
  trait : ∃ i, k.world.traits[id]? = some (concatTrait i d cons maxDepth)
  idle : k.world.nesting.current = 0

namespace Ready
variable {k : Holder} {d : Data} {nil cons : Variant} {empty : ObjectId} {id : TraitId}
  {maxDepth n : Nat} {xs ys zs : List Int64} {u v s : Value}

theorem later (h : k.Ready d nil cons empty id maxDepth) {k' : Holder} (hl : k.Later k') :
    k'.Ready d nil cons empty id maxDepth where
  toHasLists := h.toHasLists.later hl
  trait := by
    have htraits : k'.world.traits = k.world.traits := congrArg Prod.fst hl.fixed
    rw [htraits]
    exact h.trait
  idle := hl.nesting ▸ h.idle

theorem perform_call (h : k.Ready d nil cons empty id maxDepth) (args : List Value) :
    ∃ i, ∀ m, perform (m + 1) none (.call id args) k.world =
      (concatTrait i d cons maxDepth).call (perform m) args k.world := by
  obtain ⟨i, ht⟩ := h.trait
  refine ⟨i, fun m => ?_⟩
  simp only [perform, answering, Run.bind_apply, Run.get_apply, ht]

theorem joins (h : k.Ready d nil cons empty id maxDepth)
    (hu : k.world.heap.IsListOf empty cons.tag xs u) (hv : k.world.heap.IsListOf empty cons.tag ys v)
    (hroom : xs.length < maxDepth) (hn : xs.length < n) :
    ∃ z k', perform n none (.call id [u, v]) k.world = (.ok z, k'.world) ∧ k.Later k' ∧
      k'.world.heap.IsListOf empty cons.tag (xs ++ ys) z := by
  obtain ⟨m, rfl⟩ : ∃ m, n = m + 1 := Nat.exists_eq_add_of_le' (Nat.le_trans (by simp) hn)
  obtain ⟨i, hperform⟩ := h.perform_call [u, v]
  have hdepth : k.world.nesting.current + xs.length < maxDepth := by
    rw [h.idle]
    omega
  rw [hperform]
  exact h.toHasLists.call_joins hu hv hdepth (Nat.lt_succ_iff.mp hn)

theorem refuses (h : k.Ready d nil cons empty id maxDepth)
    (hu : k.world.heap.IsListOf empty cons.tag xs u) (hfull : maxDepth ≤ xs.length)
    (hn : maxDepth < n) : perform n none (.call id [u, v]) k.world =
      (.error (.fault (.dispatch (.recursionLimit "concat" maxDepth))), k.world) := by
  obtain ⟨m, rfl⟩ : ∃ m, n = m + 1 := Nat.exists_eq_add_of_le' (Nat.le_trans (by simp) hn)
  obtain ⟨i, hperform⟩ := h.perform_call [u, v]
  rw [hperform]
  exact h.toHasLists.call_refused hu (by omega) (by omega)

/-- The list that a call gave is built again, whatever the program did in between. -/
theorem builds_again (h : k.Ready d nil cons empty id maxDepth)
    (hu : k.world.heap.IsListOf empty cons.tag xs u) {k' : Holder} (hsteps : Steps k k')
    (hlives : k'.world.heap.holds u = true) :
    Scenario.listOf (.inst empty) cons xs k'.world = (.ok u, k'.world) := by
  have hcanonical := (h.reachable.sound.steps hsteps).client.world
  have hlist := hu.later hcanonical.heap (h.reachable.sound.stepsBefore hsteps) hlives
  have harity : cons.tag.arity = 2 := by
    rw [Tag.arity, h.data.fields.2]
    rfl
  exact hcanonical.listOf_living (hsteps.declared_grows.subset h.cons_known) harity hlist

theorem associates (h : k.Ready d nil cons empty id maxDepth)
    (hu : k.world.heap.IsListOf empty cons.tag xs u) (hv : k.world.heap.IsListOf empty cons.tag ys v)
    (hs : k.world.heap.IsListOf empty cons.tag zs s) (hxs : xs.length < maxDepth)
    (hys : ys.length < maxDepth) (hn : (xs ++ ys).length < n) :
    ∃ t q p w₁ w₂ w₃, perform n none (.call id [v, s]) k.world = (.ok t, w₁) ∧
      perform n none (.call id [u, t]) w₁ = (.ok q, w₂) ∧
      perform n none (.call id [u, v]) w₂ = (.ok p, w₃) ∧
      ((xs ++ ys).length < maxDepth → ∃ w, perform n none (.call id [p, s]) w₃ = (.ok q, w)) ∧
      (maxDepth ≤ (xs ++ ys).length → perform n none (.call id [p, s]) w₃ =
        (.error (.fault (.dispatch (.recursionLimit "concat" maxDepth))), w₃)) := by
  have hlength : (xs ++ ys).length = xs.length + ys.length := List.length_append
  obtain ⟨t, k₁, hright, hl₁, ht⟩ := @joins _ _ _ _ _ _ _ n _ _ _ _ h hv hs hys (by omega)
  have h₁ := h.later hl₁
  obtain ⟨q, k₂, houter, hl₂, hq⟩ :=
    @joins _ _ _ _ _ _ _ n _ _ _ _ h₁ (hu.extends hl₁.extends_) ht hxs (by omega)
  have h₂ := h₁.later hl₂
  have hl := hl₁.trans hl₂
  obtain ⟨p, k₃, hleft, hl₃, hp⟩ := @joins _ _ _ _ _ _ _ n _ _ _ _ h₂ (hu.extends hl.extends_)
    (hv.extends hl.extends_) hxs (by omega)
  have h₃ := h₂.later hl₃
  refine ⟨t, q, p, _, _, _, hright, houter, hleft, fun hroom => ?_, fun hfull => ?_⟩
  · obtain ⟨q', k₄, hagain, hl₄, hq'⟩ :=
      h₃.joins hp (hs.extends (hl.trans hl₃).extends_) hroom hn
    rw [List.append_assoc] at hq'
    have hsame : q' = q :=
      hq'.unique (h₃.later hl₄).reachable.sound.client.world (hq.extends (hl₃.trans hl₄).extends_)
    exact ⟨_, hsame ▸ hagain⟩
  · exact h₃.refuses hp hfull (Nat.lt_of_le_of_lt hfull hn)

theorem unit (h : k.Ready d nil cons empty id maxDepth)
    (hu : k.world.heap.IsListOf empty cons.tag xs u) (hroom : xs.length < maxDepth)
    (hn : xs.length < n) : perform n none (.call id [.inst empty, u]) k.world = (.ok u, k.world) ∧
      ∃ w, perform n none (.call id [u, .inst empty]) k.world = (.ok u, w) := by
  constructor
  · obtain ⟨m, rfl⟩ : ∃ m, n = m + 1 := Nat.exists_eq_add_of_le' (Nat.le_trans (by simp) hn)
    obtain ⟨i, hperform⟩ := h.perform_call [.inst empty, u]
    have hstart : ¬maxDepth ≤ k.world.nesting.current := by
      rw [h.idle]
      omega
    rw [hperform]
    exact h.toHasLists.call_empty hstart _ u
  · have hempty : k.world.heap.IsListOf empty cons.tag [] (.inst empty) := rfl
    obtain ⟨z, k', hcall, hl, hz⟩ := h.joins hu hempty hroom hn
    rw [List.append_nil] at hz
    have hsame : z = u :=
      hz.unique (h.later hl).reachable.sound.client.world (hu.extends hl.extends_)
    exact ⟨_, hsame ▸ hcall⟩

theorem concatenates (h : k.Ready d nil cons empty id maxDepth) :
    k.Concatenates id empty cons maxDepth where
  builds xs := by
    obtain ⟨v, k', hrun, hl, hv⟩ := h.listOf_builds xs
    exact ⟨v, k'.world, hrun, hl.held ▸ hl, hv⟩
  joins n xs ys u v hu hv hroom hn := by
    obtain ⟨z, k', hcall, hl, hz⟩ := h.joins hu hv hroom hn
    refine ⟨z, k'.world, hcall, hl.held ▸ hl, hz, fun k₂ hsteps hlives => ?_⟩
    rw [← hl.held] at hsteps
    exact (h.later hl).builds_again hz hsteps hlives
  refuses n xs u v hu hfull hn := h.refuses hu hfull hn
  associates n xs ys zs u v s hu hv hs hxs hys hn := h.associates hu hv hs hxs hys hn
  unit n xs u hu hroom hn := h.unit hu hroom hn

end Ready

/-- In any registry lists and their concatenation can be defined, and concatenation is append
from then on, as long as the program holds the data or clones of its variants and fewer than
2^32 variants are declared in the registry. -/
theorem Reachable.concat_appends {k : Holder} (hk : k.Reachable) {r : RegistryId} {reg : Registry}
    (hreg : k.world.registries[r]? = some reg) :
    ∃ d w id k₁ cons empty, Scenario.declareList r k.world = (.ok d, w) ∧
      Scenario.defineConcat r d w = (.ok id, k₁.world) ∧ Steps k k₁ ∧ d ∈ k₁.data ∧
      k₁.client.variantCount r = k.client.variantCount r + 2 ∧
      k₁.world.nesting = k.world.nesting ∧ d.variant "Cons" = .ok cons ∧
      d.unit "Nil" = .ok (.inst empty) ∧
      ∀ k', Steps k₁ k' → (∀ v ∈ d.variants, k'.Has v) →
        k'.world.traits[id]? = k₁.world.traits[id]? → k'.client.variantCount r < UInt32.size →
        k'.world.nesting.current = 0 → k'.Concatenates id empty cons reg.config.maxDepth := by
  obtain ⟨d, w, nil, cons, empty, hdeclare, hdata, hstep⟩ :=
    hk.declareList (Array.getElem?_eq_some_iff.mp hreg).1
  have hconfig : registryConfig r w = reg.config := by
    rw [World.registryConfig_declare r hdeclare, registryConfig, hreg]
    rfl
  have hnesting : w.nesting = k.world.nesting := World.nesting_declare hdeclare
  have hdefine := hdata.defineConcat_eq r w
  rw [hconfig] at hdefine
  have hother : Step (k.withData r none d w) ((k.withData r none d w).withWorld
      (w.addTrait (concatTrait w.traits.size d cons reg.config.maxDepth)).2) :=
    (hk.sound.step hstep).other rfl rfl rfl
  have hdefined := (Relation.ReflTransGen.single hstep).tail hother
  have hown : d.own none = [nil, cons] := hdata.variants
  refine ⟨d, w, w.traits.size, _, cons, empty, hdeclare, hdefine, hdefined, List.mem_cons_self, ?_,
    hnesting, hdata.variant_cons, hdata.unit_nil,
    fun k' hsteps hheld htrait hspare hidle => ?_⟩
  · simp [Client.variantCount, withData, withWorld, hown]
  · have hregistry := hdata.registry.2
    have hready : k'.Ready d nil cons empty w.traits.size reg.config.maxDepth :=
      ⟨⟨hk.trans (hdefined.trans hsteps), hheld, hregistry ▸ hdata, hregistry ▸ hspare⟩,
        ⟨w.traits.size, htrait.trans Array.getElem?_push_size⟩, hidle⟩
    exact hready.concatenates

/-- A program with a registry that allows for two nested calls. -/
def shallow : Holder := ⟨{world := (World.addRegistry {maxDepth := 2} {}).2}, []⟩

/-- A list of one integer is joined with one of two, but not the other way round. -/
theorem shallow_joins : ∃ d w id w₁ cons empty, Scenario.declareList 0 shallow.world = (.ok d, w) ∧
    Scenario.defineConcat 0 d w = (.ok id, w₁) ∧ d.variant "Cons" = .ok cons ∧
    d.unit "Nil" = .ok (.inst empty) ∧
    ∃ u w₂ v w₃ z w₄, Scenario.listOf (.inst empty) cons [1] w₁ = (.ok u, w₂) ∧
      Scenario.listOf (.inst empty) cons [2, 3] w₂ = (.ok v, w₃) ∧
      perform 4 none (.call id [u, v]) w₃ = (.ok z, w₄) ∧
      Scenario.listOf (.inst empty) cons [1, 2, 3] w₄ = (.ok z, w₄) ∧
      perform 4 none (.call id [v, u]) w₃ =
        (.error (.fault (.dispatch (.recursionLimit "concat" 2))), w₃) := by
  have hshallow : shallow.Reachable := .single (.client _ (.registry {} {maxDepth := 2}) (by simp))
  obtain ⟨d, w, id, k₁, cons, empty, hdeclare, hdefine, -, hmem, hcount, hnesting, hcons, hempty,
    hall⟩ := @Reachable.concat_appends shallow hshallow 0 {config := {maxDepth := 2}} rfl
  have happends {k' : Holder} (hl : k₁.Later k') : k'.Concatenates id empty cons 2 := by
    refine hall k' hl.steps ?_ ?_ ?_ ?_
    · exact hl.held ▸ fun v hv => .inr ⟨d, hmem, hv⟩
    · rw [show k'.world.traits = k₁.world.traits from congrArg Prod.fst hl.fixed]
    · rw [hl.held]
      change k₁.client.variantCount 0 < UInt32.size
      rw [hcount]
      decide
    · rw [hl.nesting, hnesting]
      rfl
  obtain ⟨u, w₂, hone, hl₂, hu⟩ := (happends (.refl k₁)).builds [1]
  obtain ⟨v, w₃, htwo, hl₃, hv⟩ := (happends hl₂).builds [2, 3]
  have hjoined := happends (hl₂.trans hl₃)
  have hu₃ := hu.extends hl₃.extends_
  obtain ⟨z, w₄, hcall, -, hz, hbuilt⟩ := hjoined.joins 4 [1] [2, 3] u v hu₃ hv (by decide) (by decide)
  have hlives : w₄.heap.holds z = true := by
    obtain ⟨tail, hinst, -⟩ := hz
    obtain ⟨i, rfl, ho⟩ := Heap.instance?_eq_some.mp hinst
    exact (Heap.proper_inst ho).holds
  exact ⟨d, w, id, k₁.world, cons, empty, hdeclare, hdefine, hcons, hempty, u, w₂, v, w₃, z, w₄, hone,
    htwo, hcall, hbuilt _ .refl hlives, hjoined.refuses 4 [2, 3] v u hv (by decide) (by decide)⟩

end Holder

end OpenVariants

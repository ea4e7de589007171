import Mathlib.Tactic.IntervalCases
import OpenVariants.Proofs.Calls
import OpenVariants.Proofs.Likeness
import OpenVariants.Proofs.Totality

/-! Extending a trait.

A trait that extends another one differs from it in the variants that it has cases for. As
long as no receiver of such a variant comes up, the two are one: whatever is called, the
same cases run in the same order, and the same comes of it (`Trait.extension_conservative`).
Within the two runs the calls are on different traits all along; cases that do not ask about
their call cannot tell (`Program.Conforms`). -/
namespace OpenVariants

/-! ### Resolution -/

namespace Trait

theorem case?_eq_none {l : Layer} {name : String} (h : name ∉ l.cases.map (·.1)) :
    l.case? name = none := by
  rw [Layer.case?, List.lookup_eq_none_iff]
  intro p hp
  rw [bne_iff_ne]
  exact fun heq => h (heq ▸ List.mem_map_of_mem hp)

/-- A layer without the name and without a wildcard does not matter. -/
theorem resolve?_extended {l : Layer} {base : Trait} {tag : String}
    (htag : tag ∉ l.cases.map (·.1)) (hwild : wildcard ∉ l.cases.map (·.1)) :
    resolve? ⟨l, base.chain⟩ tag = base.resolve? tag := by
  simp only [resolve?, chain, resolveAlong, own?, case?_eq_none htag, case?_eq_none hwild,
    Option.map_none, Option.or_none]

theorem mem_checked {trait : String} {data? : Option Data} {seen names : List String}
    (h : checkCases trait data? seen names = .ok ()) {name : String} (hname : name ∈ names) :
    name = wildcard ∨ Text.isCapitalized name = true := by
  induction names generalizing seen with
  | nil => cases hname
  | cons first rest ih =>
    simp only [checkCases] at h
    split at h
    · cases h
    · next hshape =>
      split at h
      · cases h
      · split at h
        · cases h
        · rcases List.mem_cons.mp hname with rfl | hrest
          · simpa [or_iff_not_imp_left] using hshape
          · exact ih h hrest

/-- No case is for what has no variant. -/
theorem empty_notMem_checked {trait : String} {data? : Option Data} {seen names : List String}
    (h : checkCases trait data? seen names = .ok ()) : "" ∉ names := by
  intro hempty
  rcases mem_checked h hempty with h | h
  · exact absurd h (by decide)
  · exact absurd h (by decide)

end Trait

/-! ### The cases of a run -/

namespace Moment

/-- The case that begins at a moment, with its arguments. -/
def begins? (m : Moment) : Option (Resolution × List Value) :=
  match m.control with
  | .dispatch _ t receiver args =>
    (t.resolve? (m.world.receiver receiver).caseName).map (·, args)
  | _ => none

/-- The cases that begin within a number of steps, in order. -/
def begun (k : Nat) (m : Moment) : List (Resolution × List Value) :=
  (List.range k).filterMap fun i => (m.after i).begins?

/-- No dispatch of a trait in the run from a moment is on an instance of these variants. -/
def Spares (m : Moment) (t : Trait) (variants : List String) : Prop :=
  ∀ k n receiver args, (m.after k).control = .dispatch n t receiver args →
    ∀ variant, (m.after k).world.receiver receiver = .tagged variant → variant ∉ variants

end Moment

/-! ### Two runs -/

theorem rel_self {R : Trait → Trait → Prop} (hR : ∀ t, R t t) (t? : Option Trait) :
    Option.Rel R t? t? := by
  cases t? with
  | none => exact .none
  | some t => exact .some (hR t)

/-- The traits of a run in which one trait is called in place of another one. -/
def Likeness.replacing (B T : Trait) (traits : Array Trait) (hname : T.name = B.name)
    (hmemo : T.layer.memo? = B.layer.memo?) : Likeness where
  owners t u := u = t
  called t u := u = t ∨ t = B ∧ u = T
  final _ := False
  left := traits
  right := traits
  settled := Program.settled_none
  owned := .inl
  name := by
    rintro t u (rfl | ⟨rfl, rfl⟩)
    · rfl
    · exact hname
  memo := by
    rintro t u (rfl | ⟨rfl, rfl⟩)
    · rfl
    · exact hmemo
  bottom {_ _ memo} _ _ := by
    cases memo.bottom with
    | value v => trivial
    | compute body => exact fun args => Program.conforms_any (fun _ => trivial) (fun _ => id) _
  base := by
    rintro t u rfl
    exact rel_self (fun _ => .inl rfl) _
  table id := rel_self (fun _ => .inl rfl) traits[id]?

namespace Likeness
variable {B T : Trait} {traits : Array Trait} {hname : T.name = B.name}
  {hmemo : T.layer.memo? = B.layer.memo?}

/-- In calls of one trait a program does the same. -/
theorem fits_same (frame : Option Frame) (p : Program Value) :
    (replacing B T traits hname hmemo).Fits frame frame p :=
  Program.conforms_any (fun _ _ => rfl) (fun _ => id) p

/-- A trait finds the same case as itself. -/
theorem finds_same (t : Trait) (name : String) :
    (replacing B T traits hname hmemo).Finds t t name := by
  cases hfound : t.resolve? name with
  | none => exact .nothing hfound hfound
  | some found => exact .case hfound hfound rfl fun _ => fits_same _ _

/-- What runs a case of the one trait runs the same case of the other, if the case does not
ask about its call. -/
theorem finds_replaced {name : String} (hresolve : T.resolve? name = B.resolve? name)
    (hcases : ∀ l ∈ B.chain, ∀ c ∈ l.cases, c.2.Conforms (· ≠ .frame) fun _ => False) :
    (replacing B T traits hname hmemo).Finds B T name := by
  cases hfound : B.resolve? name with
  | none => exact .nothing hfound (hresolve.trans hfound)
  | some found =>
    refine .case hfound (hresolve.trans hfound) rfl fun args => ?_
    have hlayer : found.owner.layer ∈ B.chain := (resolve_link hfound).subset List.mem_cons_self
    have hcase := hcases _ hlayer _ (resolve_mem hfound)
    exact (hcase.program nofun nofun nofun _ _ _).mono fun q hq heq => absurd heq hq

/-- Alike moments begin the same case. -/
theorem begins?_eq {m m' : Moment} (h : (replacing B T traits hname hmemo).Moments m m')
    (hfinds : ∀ n t u receiver args, m.control = .dispatch n t receiver args →
      (replacing B T traits hname hmemo).called t u →
      (replacing B T traits hname hmemo).Finds t u (m.world.receiver receiver).caseName) :
    m'.begins? = m.begins? := by
  obtain ⟨c, stack, w⟩ := m
  obtain ⟨c', stack', w'⟩ := m'
  obtain ⟨hcontrol, -, -, hworld⟩ := h
  dsimp only at hcontrol hworld hfinds
  subst hworld
  cases hcontrol with
  | @dispatch n t u receiver args hcalled =>
    have hreceiver : (w.withTraits traits).receiver receiver = w.receiver receiver := rfl
    change (u.resolve? ((w.withTraits traits).receiver receiver).caseName).map (·, args) =
      (t.resolve? (w.receiver receiver).caseName).map (·, args)
    rw [hreceiver]
    cases hfinds _ _ _ _ _ rfl hcalled with
    | nothing ht hu => rw [ht, hu]
    | case ht hu howner =>
      cases howner
      rw [ht, hu]
  | _ => rfl

end Likeness

/-- **Extending a trait is conservative.** A trait that extends another one, with its name and
its limit and without a wildcard of its own, does on every call what the other one does, if
the other one meets no instance of a variant that the extension has a case for. -/
theorem Trait.extension_conservative {id : TraitId} {data? : Option Data}
    {cases : List (String × Case)} {B T : Trait}
    (hdefine : define id B.name data? (some B) cases B.layer.maxDepth = .ok T)
    (hwild : wildcard ∉ cases.map (·.1)) (hmemo : B.layer.memo? = none)
    (hcases : ∀ l ∈ B.chain, ∀ c ∈ l.cases, c.2.Conforms (· ≠ .frame) fun _ => False)
    {n : Nat} {args : List Value} {w : World}
    (hspares : Moment.Spares ⟨.call n B args, [], w⟩ B (cases.map (·.1))) :
    T.call (perform n) args w = B.call (perform n) args w ∧
      ∀ k, Moment.begun k ⟨.call n T args, [], w⟩ = Moment.begun k ⟨.call n B args, [], w⟩ := by
  obtain ⟨hT, hchecked, -⟩ := define_ok hdefine
  have hempty := empty_notMem_checked hchecked
  have hname : T.name = B.name := by rw [hT]; rfl
  have hdepth : T.layer.maxDepth = B.layer.maxDepth := by rw [hT]; rfl
  have hmemo' : T.layer.memo? = B.layer.memo? := by rw [hT, hmemo]; rfl
  let L := Likeness.replacing B T w.traits hname hmemo'
  -- What the two traits find differs for spared variants alone; other traits stand for themselves.
  have hfinds (k : Nat) : ∀ n' t u receiver args',
      (Moment.after k ⟨.call n B args, [], w⟩).control = .dispatch n' t receiver args' →
      L.called t u → L.Finds t u
        ((Moment.after k ⟨.call n B args, [], w⟩).world.receiver receiver).caseName := by
    rintro n' t u receiver args' hcontrol (rfl | ⟨rfl, rfl⟩)
    · exact Likeness.finds_same _ _
    · refine Likeness.finds_replaced (hT ▸ resolve?_extended ?_ hwild) hcases
      cases hon : (Moment.after k ⟨.call n t args, [], w⟩).world.receiver receiver with
      | tagged variant => exact hspares k n' receiver args' hcontrol variant hon
      | untagged kind => exact hempty
  have hlike (k : Nat) : L.Moments (Moment.after k ⟨.call n B args, [], w⟩)
      (Moment.after k ⟨.call n T args, [], w⟩) := by
    induction k with
    | zero => exact ⟨.call (.inr ⟨rfl, rfl⟩), .nil, rfl, rfl⟩
    | succ k ih =>
      rw [Moment.after_succ', Moment.after_succ']
      refine ih.next ?_ (hfinds k)
      rintro _ t u _ _ - (rfl | ⟨rfl, rfl⟩)
      · exact .inl rfl
      · exact .inl hdepth
  refine ⟨?_, fun k => ?_⟩
  · obtain ⟨heval, htraits⟩ := L.eval_eq rfl fun k _ => hlike k
    refine heval.trans (Prod.ext rfl ?_)
    change World.withTraits _ w.traits = _
    rw [← show _ = w.traits from htraits]
    rfl
  · exact List.filterMap_congr fun i _ => Likeness.begins?_eq (hlike i) (hfinds i)

/-! ### An extension as an example -/

/-- A trait for leaves. -/
def leaves : Trait := ⟨⟨0, "size", none, [("Leaf", .handler fun _ => pure (.int 1))], none, 512⟩, []⟩

/-- The trait for leaves with a case for everything else. -/
def leavesOrElse : Trait :=
  ⟨⟨1, "size", none, [(wildcard, .handler fun _ => pure (.int 0))], none, 512⟩, leaves.chain⟩

/-- The size of a twig: that of what is on it, and what the trait that is extended gives. -/
def sizeOfTwig : Handler
  | .inst id :: rest => do
    let above ← Program.perform (.read id 0)
    let own ← Program.perform (.recur [above])
    let other ← Program.perform (.base (.inst id :: rest))
    Program.newList [own, other]
  | _ => pure .null

/-- The trait with a case for twigs as well. -/
def leavesAndTwigs : Trait :=
  ⟨⟨2, "size", none, [("Twig", .handler sizeOfTwig)], none, 512⟩, leavesOrElse.chain⟩

/-- The trait with a case for nodes as well. -/
def leavesTwigsAndNodes : Trait :=
  ⟨⟨3, "size", none, [("Node", .handler fun _ => pure .null)], none, 512⟩, leavesAndTwigs.chain⟩

/-- A world with a leaf on a twig. -/
def oneTwig : World where
  heap := ⟨#[some (.content (.fields ⟨0, 0, "Leaf", [], 0⟩ [])),
    some (.content (.fields ⟨1, 1, "Twig", ["of"], 0⟩ [.inst 0]))]⟩

/-- None of the cases asks about its call. -/
theorem conforms_leavesAndTwigs : ∀ l ∈ leavesAndTwigs.chain, ∀ c ∈ l.cases,
    c.2.Conforms (· ≠ .frame) fun _ => False := by
  have hperform (r : Request) : (Program.perform r).Conforms (· ≠ .frame) fun _ => False :=
    .request (fun _ => .done _) fun _ h => h.elim
  have htwig (args : List Value) : (sizeOfTwig args).Conforms (· ≠ .frame) fun _ => False := by
    unfold sizeOfTwig
    split
    · exact (hperform _).bind fun _ => (hperform _).bind fun _ => (hperform _).bind fun _ =>
        .make fun _ => .done _
    · exact .done _
  refine List.forall_mem_cons.mpr ⟨List.forall_mem_singleton.mpr htwig, ?_⟩
  refine List.forall_mem_cons.mpr ⟨?_, List.forall_mem_singleton.mpr ?_⟩
  all_goals exact List.forall_mem_singleton.mpr fun _ => .done _

/-- The call on the twig meets no node. -/
theorem spares_oneTwig : Moment.Spares ⟨.call 5 leavesAndTwigs [.inst 1], [], oneTwig⟩ leavesAndTwigs
    ["Node"] := by
  obtain ⟨w, hend⟩ : ∃ w, Moment.after 25 ⟨.call 5 leavesAndTwigs [.inst 1], [], oneTwig⟩ =
      Moment.ended (.ok (.list 2)) w := ⟨_, rfl⟩
  refine Moment.forall_after (P := fun m => ∀ n receiver args,
    m.control = .dispatch n leavesAndTwigs receiver args →
    ∀ variant, m.world.receiver receiver = .tagged variant → variant ∉ ["Node"]) hend fun k hk => ?_
  interval_cases k
  all_goals
    intro n receiver args hcontrol variant hon
    cases hcontrol
  -- On the twig, and on the leaf by the call from within.
  all_goals
    cases hon
    decide

/-- The twig has the size that it had: its case runs, from within it the one for the leaf, and
then the one that the trait extended has for the twig. -/
theorem leavesTwigsAndNodes_twig :
    leavesTwigsAndNodes.call (perform 5) [.inst 1] oneTwig =
        leavesAndTwigs.call (perform 5) [.inst 1] oneTwig ∧
      (Moment.begun 25 ⟨.call 5 leavesTwigsAndNodes [.inst 1], [], oneTwig⟩).map (·.1.name) =
        ["Twig", "Leaf", wildcard] := by
  have hdefine : Trait.define 3 "size" none (some leavesAndTwigs)
      [("Node", .handler fun _ => pure .null)] 512 = .ok leavesTwigsAndNodes := rfl
  obtain ⟨hcall, hbegun⟩ := Trait.extension_conservative hdefine (by decide) rfl
    conforms_leavesAndTwigs spares_oneTwig
  exact ⟨hcall, (congrArg (List.map (·.1.name)) (hbegun 25)).trans rfl⟩

end OpenVariants

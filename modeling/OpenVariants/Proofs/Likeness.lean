import OpenVariants.Proofs.Conduct
import OpenVariants.Proofs.Moments

/-! Runs on different traits, moment by moment.

A `Likeness` says which traits stand for one another in two runs: which are called, and
which have the cases that run. If two moments are alike then so are the next ones,
provided that a call is refused in both or in neither, and that a dispatch finds the same
case (`Likeness.Moments.next`). The two runs then make the same objects, write the same
log and leave the same in every store. -/
namespace OpenVariants

/-- How the traits of two runs correspond. -/
structure Likeness where
  /-- Traits that have the same case. -/
  owners : Trait → Trait → Prop
  /-- Traits that are called. -/
  called : Trait → Trait → Prop
  /-- Faults that every body passes on. -/
  final : Fault → Prop
  /-- The traits of either world. -/
  left : Array Trait
  right : Array Trait
  settled : Program.Settled final
  owned : ∀ {t u}, owners t u → called t u
  name : ∀ {t u}, called t u → u.name = t.name
  memo : ∀ {t u}, called t u → u.layer.memo? = t.layer.memo?
  bottom : ∀ {t u memo}, called t u → t.layer.memo? = some memo →
    memo.bottom.Conforms (fun _ => True) final
  base : ∀ {t u}, owners t u → Option.Rel called t.base? u.base?
  table : ∀ id : TraitId, Option.Rel called left[id]? right[id]?

namespace World

/-- A world with other traits. -/
def withTraits (w : World) (traits : Array Trait) : World := {w with traits}

@[simp] theorem withTraits_registries (w : World) (traits : Array Trait) :
    (w.withTraits traits).registries = w.registries := rfl

@[simp] theorem withTraits_heap (w : World) (traits : Array Trait) :
    (w.withTraits traits).heap = w.heap := rfl

@[simp] theorem withTraits_nextObject (w : World) (traits : Array Trait) :
    (w.withTraits traits).nextObject = w.nextObject := rfl

theorem countFresh_withTraits (w : World) (r : RegistryId) (traits : Array Trait) :
    (w.withTraits traits).countFresh r = (w.countFresh r).withTraits traits := by
  unfold countFresh
  rw [withTraits_registries]
  cases w.registries[r]? with
  | none => rfl
  | some reg =>
    dsimp only
    by_cases hinterval : reg.config.purgeInterval = 0
    · rw [if_pos hinterval, if_pos hinterval]
    · rw [if_neg hinterval, if_neg hinterval]
      by_cases hsweep : (reg.fresh + 1).toNat % reg.config.purgeInterval = 0
      · rw [if_pos hsweep, if_pos hsweep]
        rfl
      · rw [if_neg hsweep, if_neg hsweep]
        rfl

theorem canonicalize_withTraits (w : World) (r : RegistryId) (tag : Tag) (fields : List Value)
    (traits : Array Trait) :
    (w.withTraits traits).canonicalize r tag fields =
      ((w.canonicalize r tag fields).1, (w.canonicalize r tag fields).2.withTraits traits) := by
  unfold canonicalize
  cases hreg : w.registries[r]? with
  | none => simp only [withTraits_registries, hreg]; rfl
  | some reg =>
    rcases hfound : reg.canonical.intern w.heap (canonicalPath tag fields) (.inst w.nextObject) with
      ⟨_ | v, canonical⟩
    · simp only [withTraits_registries, withTraits_heap, withTraits_nextObject, hreg, hfound]
      rw [← countFresh_withTraits]
      rfl
    · simp only [withTraits_registries, withTraits_heap, withTraits_nextObject, hreg, hfound]

theorem reclaimed_withTraits (w : World) (since : ObjectId) (traits : Array Trait) :
    (w.withTraits traits).reclaimed since = (w.reclaimed since).withTraits traits := by
  unfold reclaimed
  rw [withTraits_heap]
  by_cases hsize : w.heap.size ≤ since
  · rw [if_pos hsize, if_pos hsize]
  · rw [if_neg hsize, if_neg hsize]
    rfl

/-- A construction does the same whatever the traits are. -/
theorem construct_withTraits (v : Variant) (args : List Value) (w : World) (traits : Array Trait) :
    v.construct args (w.withTraits traits) =
      ((v.construct args w).1, (v.construct args w).2.withTraits traits) := by
  simp only [Variant.construct, Run.bind_apply, Run.lift_apply]
  cases v.positional args with
  | error f => rfl
  | ok fields => simp only [Run.change_apply, canonicalize_withTraits]

theorem constructed_withTraits (w : World) (r : Request) (traits : Array Trait) :
    Moment.constructed (w.withTraits traits) r = (Moment.constructed w r).withTraits traits := by
  cases r with
  | construct v args => exact congrArg Prod.snd (construct_withTraits v args w traits)
  | _ => rfl

end World

namespace Likeness
variable (L : Likeness)

/-- A program that does the same in two calls. -/
def Fits (f g : Option Frame) (p : Program Value) : Prop :=
  p.Conforms (fun q => q = .frame → f.map Frame.info = g.map Frame.info) L.final

/-- Calls in progress that are alike. -/
inductive Frames : Option Frame → Option Frame → Prop
  | outside : Frames none none
  | within {f g : Frame} (howner : L.owners f.owner g.owner) (hinvoked : L.called f.invoked g.invoked) :
    Frames (some f) (some g)

inductive Controls : Control → Control → Prop
  | run {n : Nat} {f g : Option Frame} {p : Program Value} (hf : L.Frames f g) (hp : L.Fits f g p) :
    Controls (.run n f p) (.run n g p)
  | request {n : Nat} {f g : Option Frame} {r : Request} (hf : L.Frames f g) :
    Controls (.request n f r) (.request n g r)
  | call {n : Nat} {t u : Trait} {args : List Value} (h : L.called t u) :
    Controls (.call n t args) (.call n u args)
  | lookUp {n : Nat} {memo : Memo} {t u : Trait} {receiver : Value} {args : List Value}
    (h : L.called t u) (hbottom : memo.bottom.Conforms (fun _ => True) L.final) :
    Controls (.lookUp n memo t receiver args) (.lookUp n memo u receiver args)
  | dispatch {n : Nat} {t u : Trait} {receiver : Value} {args : List Value} (h : L.called t u) :
    Controls (.dispatch n t receiver args) (.dispatch n u receiver args)
  | answer {result : Except Stop Value} : Controls (.answer result) (.answer result)

inductive Waits : Pending → Pending → Prop
  | body {n : Nat} {f g : Option Frame} {next : Except Fault Value → Program Value}
    (hf : L.Frames f g) (hnext : ∀ result, L.Fits f g (next result))
    (hfinal : ∀ fault, L.final fault → (next (.error fault)).Raises fault) :
    Waits (.body n f next) (.body n g next)
  | call {t u : Trait} {args : List Value} {segment : Bool} (h : L.called t u) :
    Waits (.call t args segment) (.call u args segment)
  | bottom {n : Nat} {memo : Memo} {t u : Trait} {receiver : Value} {args : List Value}
    {path : List Key} {since : ObjectId} (h : L.called t u) :
    Waits (.bottom n memo t receiver args path since) (.bottom n memo u receiver args path since)
  | case {memo : Memo} {path : List Key} : Waits (.case memo path) (.case memo path)

/-- Moments that differ in their traits alone. -/
structure Moments (m m' : Moment) : Prop where
  control : L.Controls m.control m'.control
  stack : List.Forall₂ L.Waits m.stack m'.stack
  traits : m.world.traits = L.left
  world : m'.world = m.world.withTraits L.right

/-- Two traits find the same case under a name, or neither finds one. -/
inductive Finds (t u : Trait) (name : String) : Prop
  | nothing (ht : t.resolve? name = none) (hu : u.resolve? name = none)
  | case {found : Resolution} {owner : Trait} (ht : t.resolve? name = some found)
    (hu : u.resolve? name = some {found with owner}) (howner : L.owners found.owner owner)
    (hcase : ∀ args, L.Fits (some ⟨t, found.owner⟩) (some ⟨u, owner⟩)
      (found.case.program t.name found.name args))

variable {L}

theorem fits_outside {p : Program Value} (hp : p.Conforms (fun _ => True) L.final) :
    L.Fits none none p := hp.mono fun _ _ _ => rfl

section Steps
variable {stack stack' : List Pending} {w : World}

/-- Moments with the same stacks before them. -/
theorem moments {c c' : Control} (hw : w.traits = L.left)
    (hstack : List.Forall₂ L.Waits stack stack') (hc : L.Controls c c') :
    L.Moments ⟨c, stack, w⟩ ⟨c', stack', w.withTraits L.right⟩ := ⟨hc, hstack, hw, rfl⟩

theorem moments_stepped {n : Nat} {f g : Option Frame} {p : Program Value} (hw : w.traits = L.left)
    (hstack : List.Forall₂ L.Waits stack stack') (hf : L.Frames f g) (hp : L.Fits f g p) :
    L.Moments (Moment.stepped n f stack w p)
      (Moment.stepped n g stack' (w.withTraits L.right) p) := by
  cases hp with
  | done result => exact moments hw hstack .answer
  | @ask q next hq h =>
    have hanswer : (w.withTraits L.right).answer g q = w.answer f q := by
      cases q with
      | frame => exact (hq rfl).symm
      | _ => rfl
    rw [Moment.stepped, Moment.stepped, hanswer]
    exact moments hw hstack (.run hf (h _))
  | make h | makeFunction h | makeLazy h => exact ⟨.run hf (h _), hstack, hw, rfl⟩
  | log h => exact ⟨.run hf h, hstack, hw, rfl⟩
  | request h hfinal => exact moments hw (.cons (.body hf h hfinal) hstack) (.request hf)

theorem controls_requested {n : Nat} {f g : Option Frame} (hw : w.traits = L.left) (hf : L.Frames f g)
    (r : Request) :
    L.Controls (Moment.requested n f w r) (Moment.requested n g (w.withTraits L.right) r) := by
  have hasks (q : Query) : (fun _ : Query => True) q := trivial
  cases r with
  | call id args =>
    have htable := L.table id
    rw [← hw] at htable
    simp only [Moment.requested, World.withTraits]
    generalize w.traits[id]? = t? at htable
    generalize L.right[id]? = u? at htable
    cases htable with
    | none => exact .answer
    | some h => exact .call h
  | recur args =>
    cases hf with
    | outside => exact .answer
    | within howner hinvoked => exact .call hinvoked
  | base args =>
    cases hf with
    | outside => exact .answer
    | @within f g howner hinvoked =>
      have hbase := L.base howner
      simp only [Moment.requested, L.name (L.owned howner)]
      generalize f.owner.base? = t? at hbase
      generalize g.owner.base? = u? at hbase
      cases hbase with
      | none => exact .answer
      | some h => exact .call h
  | force id =>
    simp only [Moment.requested, World.withTraits_heap]
    split
    · exact .run .outside (fits_outside (LazyBody.conforms_program hasks _))
    · exact .answer
  | apply id args =>
    simp only [Moment.requested, World.withTraits_heap]
    split
    · exact .run .outside (fits_outside (Expr.conforms_meaning hasks _ _))
    · exact .answer
  | read id index =>
    exact .run .outside (fits_outside
      ((Program.closed_conforms (fun _ => trivial) L.settled).fieldAt _ _))
  | unify p v =>
    exact .run .outside (fits_outside
      (((Program.closed_conforms (fun _ => trivial) L.settled).matching p v).bind fun _ => .done _))
  | construct v args =>
    rw [Moment.requested, Moment.requested, World.construct_withTraits]
    exact .answer

theorem moments_called {n : Nat} {t u : Trait} {args : List Value} (hw : w.traits = L.left)
    (hstack : List.Forall₂ L.Waits stack stack') (h : L.called t u)
    (hroom : args ≠ [] → u.layer.maxDepth = t.layer.maxDepth ∨
      w.nesting.current < t.layer.maxDepth ∧ w.nesting.current < u.layer.maxDepth) :
    L.Moments (Moment.called n t args stack w)
      (Moment.called n u args stack' (w.withTraits L.right)) := by
  cases args with
  | nil =>
    simp only [Moment.called, L.name h]
    exact moments hw hstack .answer
  | cons receiver rest =>
    have hbody : L.Controls (Moment.body n t receiver (receiver :: rest))
        (Moment.body n u receiver (receiver :: rest)) := by
      unfold Moment.body
      rw [L.memo h]
      split
      · next hmemo => exact .lookUp h (L.bottom h hmemo)
      · exact .dispatch h
    have henter : L.Moments
        ⟨Moment.body n t receiver (receiver :: rest), .call t (receiver :: rest) _ :: stack,
          {w with nesting := w.nesting.inside}⟩
        ⟨Moment.body n u receiver (receiver :: rest), .call u (receiver :: rest)
          w.nesting.enter.atBoundary :: stack',
          {w with nesting := w.nesting.inside, traits := L.right}⟩ :=
      moments hw (.cons (.call h) hstack) hbody
    simp only [Moment.called, World.withTraits, L.name h]
    rcases hroom (List.cons_ne_nil _ _) with hsame | ⟨ht, hu⟩
    · rw [hsame]
      split
      · exact moments hw hstack .answer
      · exact henter
    · rw [if_neg (Nat.not_le_of_lt ht), if_neg (Nat.not_le_of_lt hu)]
      exact henter

theorem moments_lookedUp {n : Nat} {memo : Memo} {t u : Trait} {receiver : Value} {args : List Value}
    (hw : w.traits = L.left) (hstack : List.Forall₂ L.Waits stack stack') (h : L.called t u)
    (hbottom : memo.bottom.Conforms (fun _ => True) L.final) :
    L.Moments (Moment.lookedUp n memo t receiver args stack w)
      (Moment.lookedUp n memo u receiver args stack' (w.withTraits L.right)) := by
  have hstored (path : List Key) :
      (w.withTraits L.right).stored? memo.store path = w.stored? memo.store path := rfl
  simp only [Moment.lookedUp, hstored]
  split
  · exact moments hw hstack .answer
  · split
    · exact moments hw hstack .answer
    · refine moments hw (.cons (.bottom h) hstack) ?_
      cases hb : memo.bottom with
      | value v => exact .answer
      | compute body =>
        rw [hb] at hbottom
        exact .run .outside (fits_outside (hbottom args))

theorem controls_dispatched {n : Nat} {t u : Trait} {receiver : Value} {args : List Value}
    (h : L.called t u) (hfinds : L.Finds t u (w.receiver receiver).caseName) :
    L.Controls (Moment.dispatched n t receiver args w)
      (Moment.dispatched n u receiver args (w.withTraits L.right)) := by
  have hreceiver : (w.withTraits L.right).receiver receiver = w.receiver receiver := rfl
  unfold Moment.dispatched
  rw [hreceiver, L.name h]
  cases hfinds with
  | nothing ht hu =>
    rw [ht, hu]
    exact .answer
  | case ht hu howner hcase =>
    rw [ht, hu]
    exact .run (.within howner h) (hcase args)

theorem moments_resumed {result : Except Stop Value} {p q : Pending} (hw : w.traits = L.left)
    (hstack : List.Forall₂ L.Waits stack stack') (h : L.Waits p q) :
    L.Moments (Moment.resumed result stack w p)
      (Moment.resumed result stack' (w.withTraits L.right) q) := by
  cases h with
  | body hf hnext hfinal =>
    rcases result with (_ | fault) | v
    · exact moments hw hstack (.run hf (hnext _))
    · exact moments hw hstack .answer
    · exact moments hw hstack (.run hf (hnext _))
  | call h => exact ⟨.answer, hstack, hw, rfl⟩
  | bottom h =>
    cases result with
    | error stop => exact moments hw hstack .answer
    | ok b =>
      exact ⟨.dispatch h, .cons .case hstack, (World.traits_reclaimed _ _).trans hw,
        World.reclaimed_withTraits (w.storeSet _ _ b) _ L.right⟩
  | case =>
    cases result with
    | error stop => exact ⟨.answer, hstack, hw, rfl⟩
    | ok v => exact ⟨.answer, hstack, hw, rfl⟩

end Steps

/-- Alike moments have alike next ones, if neither or both refuse a call and if a dispatch finds
the same case. -/
theorem Moments.next {m m' : Moment} (h : L.Moments m m')
    (hroom : ∀ n t u receiver rest, m.control = .call n t (receiver :: rest) → L.called t u →
      u.layer.maxDepth = t.layer.maxDepth ∨
        m.world.nesting.current < t.layer.maxDepth ∧ m.world.nesting.current < u.layer.maxDepth)
    (hfinds : ∀ n t u receiver args, m.control = .dispatch n t receiver args → L.called t u →
      L.Finds t u (m.world.receiver receiver).caseName) :
    L.Moments m.next m'.next := by
  obtain ⟨c, stack, w⟩ := m
  obtain ⟨c', stack', w'⟩ := m'
  obtain ⟨hcontrol, hstack, hw, hworld⟩ := h
  dsimp only at hcontrol hstack hw hworld hroom hfinds
  subst hworld
  cases hcontrol with
  | run hf hp => exact moments_stepped hw hstack hf hp
  | @request n f g r hf =>
    cases n with
    | zero => exact moments hw hstack .answer
    | succ n =>
      exact ⟨controls_requested hw hf r, hstack, (Moment.quiet_constructed w r).traits.trans hw,
        w.constructed_withTraits r _⟩
  | @call n t u args h =>
    refine moments_called hw hstack h fun hargs => ?_
    obtain ⟨receiver, rest, rfl⟩ := List.exists_cons_of_ne_nil hargs
    exact hroom n t u receiver rest rfl h
  | lookUp h hbottom => exact moments_lookedUp hw hstack h hbottom
  | dispatch h => exact ⟨controls_dispatched h (hfinds _ _ _ _ _ rfl h), hstack, hw, rfl⟩
  | answer =>
    cases hstack with
    | nil => exact moments hw .nil .answer
    | cons hp hstack => exact moments_resumed hw hstack hp

/-- An end is like the end with the same answer. -/
theorem Moments.ended {result : Except Stop Value} {w : World} {m' : Moment}
    (h : L.Moments (Moment.ended result w) m') : m' = Moment.ended result (w.withTraits L.right) := by
  obtain ⟨c', stack', w'⟩ := m'
  obtain ⟨hcontrol, hstack, -, hworld⟩ := h
  dsimp only at hcontrol hstack hworld
  cases hcontrol
  cases hstack
  rw [hworld]
  rfl

/-- Two runs that are alike at the end of the first have the same answer. -/
theorem eval_eq (L : Likeness) {c c' : Control} {w w' w₁ : World} {result : Except Stop Value}
    (heval : c.eval w = (result, w₁))
    (h : ∀ k, Moment.after k ⟨c, [], w⟩ = Moment.ended result w₁ →
      L.Moments (Moment.after k ⟨c, [], w⟩) (Moment.after k ⟨c', [], w'⟩)) :
    c'.eval w' = (result, w₁.withTraits L.right) ∧ w₁.traits = L.left := by
  obtain ⟨k, hk⟩ := Moment.answers c [] w
  rw [heval] at hk
  have hlike := h k hk
  rw [hk] at hlike
  obtain ⟨hresult, hworld⟩ := Moment.Leads.unique (Moment.answers c' [] w') ⟨k, hlike.ended⟩
  exact ⟨Prod.ext hresult hworld, hlike.traits⟩

end Likeness

end OpenVariants

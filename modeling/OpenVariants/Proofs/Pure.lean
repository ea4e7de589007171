import OpenVariants.Proofs.Agree
import OpenVariants.Proofs.Plan

/-! Pure traits and their plain calls.

A trait is pure if its cases follow plans, in whatever a program comes to and however
often they run. A plain call of a pure trait has the value that its plans have: it
succeeds exactly when they have one, and then its result has that shape
(`Pure.plain_call`). -/
namespace OpenVariants

/-! ### What a call does to a program -/

/-- What no call changes: the tables of definitions and the names. -/
def World.fixed (w : World) :
    Array Trait × Array Rules × Array (Option Value) × List (String × Binding) :=
  (w.traits, w.rules, w.knots, w.bindings)

namespace Client

/-- After a call: what lives lives on, and declarations, definitions, names and the
nesting of calls are as before. -/
structure Later (c c' : Client) : Prop where
  steps : Steps c c'
  extends_ : c.world.heap.Extends c'.world.heap
  data : c'.data = c.data
  declared : c'.declared = c.declared
  nesting : c'.world.nesting = c.world.nesting
  fixed : c'.world.fixed = c.world.fixed

/-- After what left a table alone. -/
structure Quiet (table : StoreId) (c c' : Client) : Prop extends Later c c' where
  store : c'.world.stores[table]? = c.world.stores[table]?

theorem Later.refl (c : Client) : c.Later c :=
  ⟨.refl, Heap.Extends.refl _, rfl, rfl, rfl, rfl⟩

theorem Later.trans {a b c : Client} (hab : a.Later b) (hbc : b.Later c) : a.Later c :=
  ⟨hab.steps.trans hbc.steps, hab.extends_.trans hbc.extends_, hbc.data.trans hab.data,
    hbc.declared.trans hab.declared, hbc.nesting.trans hab.nesting, hbc.fixed.trans hab.fixed⟩

theorem Quiet.refl (table : StoreId) (c : Client) : c.Quiet table c := ⟨.refl c, rfl⟩

theorem Quiet.trans {table : StoreId} {a b c : Client} (hab : a.Quiet table b)
    (hbc : b.Quiet table c) : a.Quiet table c :=
  ⟨hab.toLater.trans hbc.toLater, hbc.store.trans hab.store⟩

theorem Later.eq_withWorld {c c' : Client} (hl : c.Later c') : {c with world := c'.world} = c' := by
  rw [← hl.data, ← hl.declared]

theorem Reachable.later {c c' : Client} (hc : c.Reachable) (hl : c.Later c') : c'.Reachable :=
  hc.trans hl.steps

theorem Reachable.before {c c' : Client} (hc : c.Reachable) (hl : Steps c c') :
    c.world.heap.Before c'.world.heap :=
  hc.sound.stepsBefore hl

/-- What has a shape and lives keeps the shape after a call. -/
theorem Later.shown {c c' : Client} (hl : c.Later c') (hc : c.Reachable) {s : Shape} {v : Value}
    (hv : c.world.heap.Proper v) (hs : s.Shown c.world.heap v) : s.Shown c'.world.heap v :=
  hs.later (hc.before hl.steps) (hc.later hl).sound.world.heap (hv.extends hl.extends_).holds

theorem Later.allShown {c c' : Client} (hl : c.Later c') (hc : c.Reachable) {ss : List Shape}
    {vs : List Value} (hv : ∀ v ∈ vs, c.world.heap.Proper v)
    (hs : Shape.AllShown c.world.heap ss vs) : Shape.AllShown c'.world.heap ss vs :=
  hs.later (hc.before hl.steps) (hc.later hl).sound.world.heap fun v h =>
    ((hv v h).extends hl.extends_).holds

/-- A program with its calls nested otherwise. -/
def withNesting (c : Client) (n : Nesting) : Client :=
  {c with world := {c.world with nesting := n}}

theorem step_withNesting (c : Client) (n : Nesting) : Step c (c.withNesting n) :=
  .other c _ rfl rfl rfl

/-- After a call is after what it did inside. -/
theorem Later.outside {c c' : Client} {n : Nesting} (hl : (c.withNesting n).Later c') :
    c.Later (c'.withNesting c.world.nesting) := by
  refine ⟨?_, hl.extends_, hl.data, hl.declared, rfl, hl.fixed⟩
  exact ((Relation.ReflTransGen.single (c.step_withNesting n)).trans hl.steps).tail
    (c'.step_withNesting _)

end Client

/-! ### Playing a plan -/

/-- How the run of a case from a client comes out, with a performer that allows for `k`
nested bodies, when it follows a plan. -/
inductive Plays (table : StoreId) (k : Nat) (frame : Frame) :
    Plan → Client → Except Stop Value × World → Prop
  | done {c c' : Client} {s : Shape} {v : Value} (hq : c.Quiet table c')
    (hv : c'.world.heap.Proper v) (hs : s.Shown c'.world.heap v) :
    Plays table k frame (.done s) c (.ok v, c'.world)
  | fail {c c' : Client} {stop : Stop} (hq : c.Quiet table c') :
    Plays table k frame .fail c (.error stop, c'.world)
  | call {c c' : Client} {callee : Callee} {args : List Shape} {values : List Value}
    {next : Shape → Plan} {out : Except Stop Value × World} (hq : c.Quiet table c')
    (hin : ∀ v ∈ values, c'.world.heap.Proper v) (hs : Shape.AllShown c'.world.heap args values)
    (herror : ∀ stop c₂, perform k (some frame) (callee.request values) c'.world =
      (.error stop, c₂.world) → c'.Later c₂ → ∃ stop' c₃, c₂.Quiet table c₃ ∧
        out = (.error stop', c₃.world))
    (hok : ∀ v c₂ s, perform k (some frame) (callee.request values) c'.world = (.ok v, c₂.world) →
      c'.Later c₂ → c₂.world.heap.Proper v → s.Shown c₂.world.heap v →
      Plays table k frame (next s) c₂ out) :
    Plays table k frame (.call callee args next) c out
  | need {c : Client} {needed : Nat} {room : Option Nat} {next : Plan}
    {out : Except Stop Value × World}
    (henough : Plan.Enough k c.world.nesting.current needed room → Plays table k frame next c out)
    (hnot : ¬Plan.Enough k c.world.nesting.current needed room →
      ∃ stop c', c.Quiet table c' ∧ out = (.error stop, c'.world)) :
    Plays table k frame (.need needed room next) c out

/-- A program that only makes a call follows the plan that only does so. -/
theorem plays_call {table : StoreId} {k : Nat} {frame : Frame} {c : Client} (callee : Callee)
    {args : List Shape} {values : List Value} (hin : ∀ v ∈ values, c.world.heap.Proper v)
    (hs : Shape.AllShown c.world.heap args values) :
    Plays table k frame (.call callee args .done) c
      ((Program.perform (callee.request values)).run (perform k) (some frame) c.world) := by
  have hrun : (Program.perform (callee.request values)).run (perform k) (some frame) c.world =
      perform k (some frame) (callee.request values) c.world := by
    simp only [Program.perform, Program.run]
    rcases perform k (some frame) (callee.request values) c.world with ⟨(_ | _) | _, _⟩ <;> rfl
  rw [hrun]
  refine .call (.refl table c) hin hs (fun stop c₂ h _ => ?_) fun v c₂ s h _ hv hshown => ?_
  · exact ⟨stop, c₂, .refl table c₂, h⟩
  · rw [h]
    exact .done (.refl table c₂) hv hshown

/-- The cases that some traits run follow plans, whenever what they rely on is there;
and calls leave what they rely on. -/
structure Pure (table : StoreId) (relies : Client → Prop) (plans : Plans) (traits : Trait → Prop) :
    Prop where
  later : ∀ c c', relies c → c.Later c' → relies c'
  nesting : ∀ c n, relies c → relies (c.withNesting n)
  plays : ∀ t name found, traits t → t.resolve? name = some found →
    ∀ k c args values, c.Reachable → relies c → (∀ v ∈ values, c.world.heap.Proper v) →
      Shape.AllShown c.world.heap args values →
      Plays table k ⟨t, found.owner⟩ (plans found.owner found.name args) c
        (found.case.run (perform k) ⟨t, found.owner⟩ found.name values c.world)

/-- A result is a value of the shape, or a stop if there is none. -/
def Gives (h : Heap) (result : Except Stop Value) : Option Shape → Prop
  | some s => ∃ v, result = .ok v ∧ h.Proper v ∧ s.Shown h v
  | none => ∃ stop, result = .error stop

/-- A computation ends as a program does of which something holds, along with the result. -/
def Ends (out : Except Stop Value × World) (holds : Client → Except Stop Value → Prop) : Prop :=
  ∃ c, out.2 = c.world ∧ holds c out.1

/-! ### Opening calls -/

theorem perform_request (n : Nat) (frame : Frame) (callee : Callee) (values : List Value) :
    perform (n + 1) (some frame) (callee.request values) =
      match frame.callee? callee with
      | some t => t.call (perform n) values
      | none => Run.fail (.dispatch (.noBase frame.owner.name)) := by
  cases callee with
  | again => rfl
  | base =>
    change (match frame.owner.base? with | some base => _ | none => _) = _
    unfold Frame.callee?
    cases frame.owner.base? <;> rfl

/-- A call does not start when as many are active as the trait allows. -/
theorem Trait.guarded_full {t : Trait} {w : World} (h : t.layer.maxDepth ≤ w.nesting.current)
    (body : Run α) :
    t.guarded body w =
      (.error (.fault (.dispatch (.recursionLimit t.name t.layer.maxDepth))), w) := by
  unfold guarded
  rw [if_pos h]

/-- The nesting that the body of a call runs in. -/
def Nesting.inside (n : Nesting) : Nesting := if n.enter.atBoundary then n.enter.suspend else n.enter

theorem Nesting.current_inside (n : Nesting) : n.inside.current = n.current + 1 := by
  unfold inside
  split <;> rfl

/-- A call that may start runs its body inside, and leaves the nesting as it was if the
body does. -/
theorem Trait.guarded_eq (t : Trait) (body : Run α) (w w' : World) (r : Except Stop α)
    (hroom : ¬t.layer.maxDepth ≤ w.nesting.current)
    (hbody : body {w with nesting := w.nesting.inside} = (r, w'))
    (hnesting : w'.nesting = w.nesting.inside) :
    t.guarded body w = (r, {w' with nesting := w.nesting}) := by
  unfold guarded
  rw [if_neg hroom]
  unfold Run.inSegment
  simp only [Run.onFreshStack_eq]
  unfold Nesting.inside at hbody hnesting
  split at hbody
  · next hboundary =>
    rw [if_pos hboundary] at hnesting ⊢
    rw [hbody]
    simp [hnesting, Nesting.suspend, Nesting.resume, Nesting.leave, Nesting.enter]
  · next hboundary =>
    rw [if_neg hboundary] at hnesting ⊢
    rw [hbody]
    simp [hnesting, Nesting.leave, Nesting.enter]

theorem Trait.dispatch_eq (perform : Performer) (t : Trait) (receiver : Value) (args : List Value)
    (w : World) :
    t.dispatch perform receiver args w =
      match t.resolve? (w.receiver receiver).caseName with
      | some found => found.case.run perform ⟨t, found.owner⟩ found.name args w
      | none => (.error (.fault (.dispatch (.noCase t.name (w.receiver receiver)))), w) := by
  simp only [dispatch, Run.bind_apply, Run.get_apply]
  cases t.resolve? (w.receiver receiver).caseName <;> rfl

/-- A call looks for the case that the shape of its receiver names. -/
theorem caseName_of_shown {w : World} {s : Shape} {v : Value} (hv : w.heap.Proper v)
    (hs : s.Shown w.heap v) : (w.receiver v).caseName = s.caseName := by
  unfold World.receiver
  cases hi : w.heap.instance? v with
  | some p =>
    obtain ⟨tag, values⟩ := p
    obtain ⟨id, rfl, ho⟩ := Heap.instance?_eq_some.mp hi
    cases s with
    | leaf k =>
      rw [Shape.Shown] at hs
      rw [← hs.1] at hs
      cases hs.2
    | node head parts =>
      rw [Shape.Shown] at hs
      obtain ⟨id', o, hk, ho', hhead, _⟩ := hs
      cases hk
      rw [ho] at ho'
      cases ho'
      rw [← hhead]
      rfl
  | none =>
    cases s with
    | leaf k => rfl
    | node head parts =>
      rw [Shape.Shown] at hs
      obtain ⟨id, o, hk, ho, hhead, _⟩ := hs
      obtain ⟨o', ho', hname⟩ := hv id (Heap.ofValue_eq_object hk)
      rw [ho] at ho'
      cases ho'
      cases head with
      | inst tag =>
        have hinst : ∃ values, o = .content (.fields tag values) := by
          unfold Object.head at hhead
          split at hhead <;> cases hhead
          exact ⟨_, rfl⟩
        obtain ⟨values, rfl⟩ := hinst
        rw [← hname] at hi
        rw [show (Object.content (.fields tag values)).reference id = .inst id from rfl,
          Heap.instance?_inst.mpr ho] at hi
        cases hi
      | _ => rfl

/-- What holds at the end of a body inside holds of the call around it, with the nesting
as it was. -/
theorem Trait.guarded_ends {t : Trait} {body : Run Value} {c : Client}
    {inside outside : Client → Except Stop Value → Prop}
    (hroom : ¬t.layer.maxDepth ≤ c.world.nesting.current)
    (hbody : Ends (body (c.withNesting c.world.nesting.inside).world) inside)
    (hends : ∀ c' r, inside c' r → c'.world.nesting = c.world.nesting.inside ∧
      outside (c'.withNesting c.world.nesting) r) :
    Ends (t.guarded body c.world) outside := by
  obtain ⟨c', hworld, hinside⟩ := hbody
  obtain ⟨hnesting, houtside⟩ := hends c' _ hinside
  rw [t.guarded_eq body c.world c'.world (body (c.withNesting c.world.nesting.inside).world).1 hroom
    (by rw [← hworld]; rfl) hnesting]
  exact ⟨c'.withNesting c.world.nesting, rfl, houtside⟩

/-! ### Links of a chain -/

/-- A trait is another one or is overridden by it. -/
def Trait.Link (t u : Trait) : Prop := u.chain <:+ t.chain

theorem Trait.Link.refl (t : Trait) : t.Link t := List.suffix_rfl

theorem Trait.Link.trans {t u v : Trait} (htu : t.Link u) (huv : u.Link v) : t.Link v :=
  List.IsSuffix.trans huv htu

theorem Trait.base_link {t u : Trait} (h : t.base? = some u) : t.Link u := by
  unfold base? at h
  split at h
  · cases h
  · next layer bases hbases =>
    cases h
    exact ⟨[t.layer], by rw [chain, chain, hbases]; rfl⟩

theorem own?_owner {t : Trait} {name : String} {found : Resolution} (h : t.own? name = some found) :
    found.owner = t := by
  obtain ⟨c, _, rfl⟩ := Option.map_eq_some_iff.mp h
  rfl

theorem resolveAlong_link {t : Trait} {tag : String} {pending : Option Resolution} {layer : Layer}
    {bases : List Layer} {found : Resolution} (hlink : t.Link ⟨layer, bases⟩)
    (hpending : ∀ p, pending = some p → t.Link p.owner)
    (h : Trait.resolveAlong tag pending layer bases = some found) : t.Link found.owner := by
  induction bases generalizing layer pending with
  | nil =>
    simp only [Trait.resolveAlong, Option.or_eq_some_iff] at h
    rcases h with h | ⟨_, h | ⟨_, h⟩⟩
    · exact own?_owner h ▸ hlink
    · exact hpending found h
    · exact own?_owner h ▸ hlink
  | cons next rest ih =>
    simp only [Trait.resolveAlong] at h
    split at h
    · next p hown =>
      cases h
      exact own?_owner hown ▸ hlink
    · refine ih (hlink.trans (Trait.base_link rfl)) (fun p hp => ?_) h
      rcases Option.or_eq_some_iff.mp hp with hp | ⟨_, hp⟩
      · exact hpending p hp
      · exact own?_owner hp ▸ hlink

/-- The owner of a case is a link of the chain. -/
theorem resolve_link {t : Trait} {tag : String} {found : Resolution}
    (h : t.resolve? tag = some found) : t.Link found.owner :=
  resolveAlong_link (.refl t) (by simp) h

/-- Whom a case can call is a link of the chain. -/
theorem callee_link {t u : Trait} {tag : String} {found : Resolution} {callee : Callee}
    (h : t.resolve? tag = some found) (hu : Frame.callee? ⟨t, found.owner⟩ callee = some u) :
    t.Link u := by
  cases callee with
  | again =>
    cases hu
    exact .refl t
  | base => exact (resolve_link h).trans (Trait.base_link hu)

/-! ### Plain calls -/

section Plain
variable {table : StoreId} {relies : Client → Prop} {plans : Plans} {traits : Trait → Prop}

/-- A plan comes to its value if its calls come to theirs. -/
theorem Plays.ends {k depth : Nat} {frame : Frame} {plan : Plan} {c : Client}
    {out : Except Stop Value × World} (hp : Pure table relies plans traits)
    {answer : Callee → List Shape → Option Shape}
    (hanswer : ∀ callee c args values, c.Reachable → relies c → c.world.nesting.current = depth →
      (∀ v ∈ values, c.world.heap.Proper v) → Shape.AllShown c.world.heap args values →
      Ends (perform k (some frame) (callee.request values) c.world) fun c' r =>
        c.Quiet table c' ∧ Gives c'.world.heap r (answer callee args))
    (hplays : Plays table k frame plan c out) (hc : c.Reachable) (hr : relies c)
    (hdepth : c.world.nesting.current = depth) :
    Ends out fun c' r => c.Quiet table c' ∧ Gives c'.world.heap r (plan.eval k depth answer) := by
  induction hplays with
  | done hq hv hs => exact ⟨_, rfl, hq, _, rfl, hv, hs⟩
  | fail hq => exact ⟨_, rfl, hq, _, rfl⟩
  | @call c c' callee args values next out hq hin hs herror hok ih =>
    have hdepth' : c'.world.nesting.current = depth := hq.nesting ▸ hdepth
    obtain ⟨c₂, hworld, hquiet, hgives⟩ := hanswer callee c' args values (hc.later hq.toLater)
      (hp.later c c' hr hq.toLater) hdepth' hin hs
    have hr₂ := hp.later c c₂ hr (hq.trans hquiet).toLater
    have hc₂ := hc.later (hq.trans hquiet).toLater
    rw [Plan.eval]
    cases hans : answer callee args with
    | none =>
      rw [hans] at hgives
      obtain ⟨stop, hstop⟩ := hgives
      obtain ⟨stop', c₃, hquiet', rfl⟩ := herror stop c₂ (Prod.ext hstop hworld) hquiet.toLater
      exact ⟨c₃, rfl, (hq.trans hquiet).trans hquiet', stop', rfl⟩
    | some s =>
      rw [hans] at hgives
      obtain ⟨v, hv, hproper, hshown⟩ := hgives
      obtain ⟨c₃, hworld₃, hquiet₃, hgives₃⟩ := ih v c₂ s (Prod.ext hv hworld) hquiet.toLater hproper
        hshown hc₂ hr₂ (hquiet.nesting ▸ hdepth')
      exact ⟨c₃, hworld₃, (hq.trans hquiet).trans hquiet₃, hgives₃⟩
  | @need c needed room next out henough hnot ih =>
    rw [Plan.eval, ← hdepth]
    split
    · next h => exact hdepth ▸ ih h hc hr hdepth
    · next h =>
      obtain ⟨stop, c', hq, rfl⟩ := hnot h
      exact ⟨c', rfl, hq, stop, rfl⟩

/-- Calls from a case come to their values if the calls one below do. -/
theorem answer_gives {n : Nat} {frame : Frame} {callee : Callee} {c : Client} {args : List Shape}
    {values : List Value}
    (hcall : ∀ u, frame.callee? callee = some u →
      Ends (u.call (perform n) values c.world) fun c' r =>
        c.Quiet table c' ∧ Gives c'.world.heap r (u.eval plans n c.world.nesting.current args)) :
    Ends (perform (n + 1) (some frame) (callee.request values) c.world) fun c' r =>
      c.Quiet table c' ∧ Gives c'.world.heap r
        ((frame.callee? callee).bind fun u => u.eval plans n c.world.nesting.current args) := by
  rw [perform_request]
  cases hu : frame.callee? callee with
  | none => exact ⟨c, rfl, .refl table c, _, rfl⟩
  | some u => exact hcall u hu

/-- A dispatch follows the plan of the case that the shape of the receiver names. -/
theorem Pure.dispatch (hp : Pure table relies plans traits) {t : Trait} (ht : traits t) (k : Nat)
    {c : Client} {s : Shape} {args : List Shape} {receiver : Value} {values : List Value}
    (hc : c.Reachable) (hr : relies c) (hin : ∀ v ∈ receiver :: values, c.world.heap.Proper v)
    (hs : Shape.AllShown c.world.heap (s :: args) (receiver :: values)) :
    (∀ found, t.resolve? s.caseName = some found →
      Plays table k ⟨t, found.owner⟩ (plans found.owner found.name (s :: args)) c
        (t.dispatch (perform k) receiver (receiver :: values) c.world)) ∧
    (t.resolve? s.caseName = none → ∃ stop,
      t.dispatch (perform k) receiver (receiver :: values) c.world = (.error stop, c.world)) := by
  rw [t.dispatch_eq, caseName_of_shown (hin receiver List.mem_cons_self) hs.1]
  refine ⟨fun found hfound => ?_, fun hnone => ?_⟩
  · rw [hfound]
    exact hp.plays t s.caseName found ht hfound k c _ _ hc hr hin hs
  · rw [hnone]
    exact ⟨_, rfl⟩

/-- The call of a trait that has no table, given how the calls in it come out. -/
theorem Pure.call_with (hp : Pure table relies plans traits) {k : Nat} {t : Trait} (ht : traits t)
    (hplain : t.layer.memo? = none) {c : Client} {call : Trait → List Shape → Option Shape}
    (hanswer : ∀ tag found, t.resolve? tag = some found → ∀ callee c' args values, c'.Reachable →
      relies c' → c'.world.nesting.current = c.world.nesting.current + 1 →
      (∀ v ∈ values, c'.world.heap.Proper v) → Shape.AllShown c'.world.heap args values →
      Ends (perform k (some ⟨t, found.owner⟩) (callee.request values) c'.world) fun c'' r =>
        c'.Quiet table c'' ∧ Gives c''.world.heap r
          ((Frame.callee? ⟨t, found.owner⟩ callee).bind fun u => call u args))
    {args : List Shape} {values : List Value} (hc : c.Reachable) (hr : relies c)
    (hin : ∀ v ∈ values, c.world.heap.Proper v) (hs : Shape.AllShown c.world.heap args values) :
    Ends (t.call (perform k) values c.world) fun c' r =>
      c.Quiet table c' ∧
        Gives c'.world.heap r (t.evalWith plans k c.world.nesting.current call args) := by
  cases values with
  | nil =>
    cases args with
    | nil => exact ⟨c, rfl, .refl table c, _, rfl⟩
    | cons => cases hs
  | cons receiver rest =>
    cases args with
    | nil => cases hs
    | cons s ss =>
      simp only [Trait.call, hplain, Trait.evalWith]
      by_cases hroom : t.layer.maxDepth ≤ c.world.nesting.current
      · rw [if_pos hroom, Trait.guarded_full hroom]
        exact ⟨c, rfl, .refl table c, _, rfl⟩
      · rw [if_neg hroom]
        have hc' : (c.withNesting c.world.nesting.inside).Reachable :=
          hc.tail (c.step_withNesting _)
        have hr' := hp.nesting c c.world.nesting.inside hr
        have hcurrent := Nesting.current_inside c.world.nesting
        have hbody : Ends (t.dispatch (perform k) receiver (receiver :: rest)
            (c.withNesting c.world.nesting.inside).world) fun c' r =>
            (c.withNesting c.world.nesting.inside).Quiet table c' ∧ Gives c'.world.heap r
              ((t.resolve? s.caseName).bind fun found =>
                (plans found.owner found.name (s :: ss)).eval k (c.world.nesting.current + 1)
                  fun callee args =>
                    (Frame.callee? ⟨t, found.owner⟩ callee).bind fun u => call u args) := by
          obtain ⟨hfollows, hnone⟩ := hp.dispatch ht k hc' hr' hin hs
          cases hfound : t.resolve? s.caseName with
          | none =>
            obtain ⟨stop, hstop⟩ := hnone hfound
            rw [hstop]
            exact ⟨_, rfl, .refl table _, stop, rfl⟩
          | some found =>
            exact (hfollows found hfound).ends hp (fun callee c' => hanswer _ found hfound callee c')
              hc' hr' hcurrent
        refine Trait.guarded_ends hroom hbody ?_
        rintro c' r ⟨hquiet, hgives⟩
        exact ⟨hquiet.nesting, ⟨hquiet.toLater.outside, hquiet.store⟩, hgives⟩

/-- The call of a trait without tables comes to its value. -/
theorem Pure.plain_call (hp : Pure table relies plans traits)
    (hplain : ∀ t, traits t → t.layer.memo? = none)
    (hclosed : ∀ t u, traits t → t.Link u → traits u) (k : Nat) {t : Trait} (ht : traits t)
    {c : Client} {args : List Shape} {values : List Value} (hc : c.Reachable) (hr : relies c)
    (hin : ∀ v ∈ values, c.world.heap.Proper v) (hs : Shape.AllShown c.world.heap args values) :
    Ends (t.call (perform k) values c.world) fun c' r =>
      c.Quiet table c' ∧ Gives c'.world.heap r (t.eval plans k c.world.nesting.current args) := by
  induction k generalizing t c args values with
  | zero =>
    refine hp.call_with ht (hplain t ht) ?_ hc hr hin hs
    intro tag found hfound callee c' args' values' _ _ _ _ _
    refine ⟨c', rfl, .refl table c', ?_⟩
    cases Frame.callee? ⟨t, found.owner⟩ callee <;> exact ⟨_, rfl⟩
  | succ n ih =>
    refine hp.call_with ht (hplain t ht) ?_ hc hr hin hs
    intro tag found hfound callee c' args' values' hc' hr' hdepth hin' hs'
    rw [← hdepth]
    exact answer_gives fun u hu =>
      ih (hclosed t u ht (callee_link hfound hu)) hc' hr' hin' hs'

end Plain

end OpenVariants

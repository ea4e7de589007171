import OpenVariants.Proofs.Table

/-! Calls of a memoized pure trait.

While a case runs the table has a bottom for its arguments. A call that has a value never
needs its own, though, so nothing it calls is in progress, and it sees no bottom; what a
cycle makes of the bottoms it sees is the result of calls that have no value. So a call
through the table keeps the table right, gives a value of the right shape only, and gives
one wherever the plans have one (`Memoized.call`). -/
namespace OpenVariants

/-! ### Calls that need others -/

/-- A call has a value only if something has one with no more fuel. -/
def Trait.Needs (plans : Plans) (t : Trait) (args : List Shape)
    (value : Nat → Nat → Option Shape) : Prop :=
  ∀ n d s, t.eval plans n d args = some s → ∃ m d' s', m ≤ n ∧ value m d' = some s'

namespace Trait
variable {plans : Plans} {t : Trait} {args us : List Shape}

theorem Needs.imp {value value' : Nat → Nat → Option Shape} (h : t.Needs plans args value)
    (himp : ∀ n d s, value n d = some s → ∃ d' s', value' n d' = some s') :
    t.Needs plans args value' := by
  intro n d s hs
  obtain ⟨m, d', s', hm, hvalue⟩ := h n d s hs
  obtain ⟨d'', s'', hvalue'⟩ := himp m d' s' hvalue
  exact ⟨m, d'', s'', hm, hvalue'⟩

/-- A call needs its case. -/
theorem needs_inside : t.Needs plans args fun n d => t.inside plans n d args := by
  intro n d s hs
  exact ⟨n, d + 1, s, Nat.le_refl n, (eval_eq_some.mp hs).2⟩

/-- What a call in a call needs the call needs. -/
theorem Needs.inside (h : t.Needs plans us fun n d => t.below plans n d args) :
    t.Needs plans us fun n d => t.inside plans n d args := by
  intro n d s hs
  obtain ⟨m, d', s', hm, hbelow⟩ := h n d s hs
  cases m with
  | zero => cases hbelow
  | succ m => exact ⟨m, d' + 1, s', Nat.le_of_succ_le hm, (eval_eq_some.mp hbelow).2⟩

/-- A call that needs itself among its calls has no value: it would have one with ever
less fuel. -/
theorem Needs.eval_eq_none (h : t.Needs plans args fun n d => t.below plans n d args) (n d : Nat) :
    t.eval plans n d args = none := by
  induction n using Nat.strongRecOn generalizing d with
  | ind n ih =>
    rw [Option.eq_none_iff_forall_ne_some]
    intro s hs
    obtain ⟨m, d', s', hm, hbelow⟩ := h n d s hs
    cases m with
    | zero => cases hbelow
    | succ m =>
      have heval : t.eval plans m d' args = some s' := hbelow
      rw [ih m hm d'] at heval
      cases heval

end Trait

/-! ### How calls end -/

/-- How a computation ends that a program starts with so many calls active: with a right
table, with a value only of the right shape, and with a value if there is one given the
fuel and the room. -/
structure Meets (table : StoreId) (comesTo : List Shape → Shape → Prop) (active : List (List Shape))
    (value : Nat → Nat → Option Shape) (fuel depth : Nat) (c c' : Client) (r : Except Stop Value) :
    Prop where
  later : c.Later c'
  table : Table table comesTo active c'
  proper : ∀ v, r = .ok v → c'.world.heap.Proper v
  right : ∀ v, r = .ok v → ∀ n d s, value n d = some s → s.Shown c'.world.heap v
  ends : ∀ d s, value fuel d = some s → depth ≤ d → ∃ v, r = .ok v

section Meeting
variable {table : StoreId} {comesTo : List Shape → Shape → Prop} {active : List (List Shape)}
  {value : Nat → Nat → Option Shape} {fuel depth : Nat} {c c' : Client}

/-- A stop is right where there is no value. -/
theorem Meets.stop {stop : Stop} (hl : c.Later c') (ht : Table table comesTo active c')
    (hnone : ∀ d s, value fuel d = some s → ¬depth ≤ d) :
    Meets table comesTo active value fuel depth c c' (.error stop) :=
  ⟨hl, ht, (fun v hv => by cases hv), (fun v hv => by cases hv),
    fun d s hs hd => absurd hd (hnone d s hs)⟩

/-- What ends as it should for one value does for another that it has, too. -/
theorem Meets.imp {r : Except Stop Value} {value' : Nat → Nat → Option Shape} {depth' : Nat}
    (h : Meets table comesTo active value fuel depth c c' r)
    (himp : ∀ n d s, value' n d = some s → ∃ d', value n d' = some s ∧ (depth' ≤ d → depth ≤ d')) :
    Meets table comesTo active value' fuel depth' c c' r := by
  refine ⟨h.later, h.table, h.proper, fun v hv n d s hs => ?_, fun d s hs hd => ?_⟩
  · obtain ⟨d', hs', _⟩ := himp n d s hs
    exact h.right v hv n d' s hs'
  · obtain ⟨d', hs', hd'⟩ := himp fuel d s hs
    exact h.ends d' s hs' (hd' hd)

theorem Meets.after {r : Except Stop Value} {c₁ : Client} (hl : c.Later c₁)
    (h : Meets table comesTo active value fuel depth c₁ c' r) :
    Meets table comesTo active value fuel depth c c' r :=
  ⟨hl.trans h.later, h.table, h.proper, h.right, h.ends⟩

/-- A case that follows a plan ends as it should if its calls do. -/
theorem Plays.meets {relies : Client → Prop} {plans q : Plans} {t : Trait} {traits : Trait → Prop}
    (hp : Pure table relies plans traits) {k : Nat} {frame : Frame}
    {answers : Nat → Nat → Callee → List Shape → Option Shape}
    (hcall : ∀ callee c args values, c.Reachable → relies c → Table table comesTo active c →
      (∀ v ∈ values, c.world.heap.Proper v) → Shape.AllShown c.world.heap args values →
      (∀ us ∈ active, t.Needs q us fun n d => answers n d callee args) →
      Ends (perform k (some frame) (callee.request values) c.world)
        (Meets table comesTo active (fun n d => answers n d callee args) k
          c.world.nesting.current c))
    {plan : Plan} {out : Except Stop Value × World} (hplays : Plays table k frame plan c out)
    (hc : c.Reachable) (hr : relies c) (ht : Table table comesTo active c)
    (hneeds : ∀ us ∈ active, t.Needs q us fun n d => plan.eval n d (answers n d)) :
    Ends out (Meets table comesTo active (fun n d => plan.eval n d (answers n d)) k
      c.world.nesting.current c) := by
  induction hplays with
  | done hq hv hs =>
    refine ⟨_, rfl, hq.toLater, ht.quiet hc hq, fun v h => ?_, fun v h n d s hvalue => ?_, ?_⟩
    · cases h
      exact hv
    · cases h
      cases hvalue
      exact hs
    · exact fun d s _ _ => ⟨_, rfl⟩
  | fail hq => exact ⟨_, rfl, .stop hq.toLater (ht.quiet hc hq) fun d s hs => by cases hs⟩
  | @call c c₁ callee args values next out hq hin hs herror hok ih =>
    have hc₁ := hc.later hq.toLater
    have hnesting : c₁.world.nesting.current = c.world.nesting.current := by rw [hq.nesting]
    obtain ⟨c₂, hworld, hmeets⟩ := hcall callee c₁ args values hc₁ (hp.later c c₁ hr hq.toLater)
      (ht.quiet hc hq) hin hs fun us hus => (hneeds us hus).imp fun n d s h => by
        obtain ⟨s', hs', _⟩ := Option.bind_eq_some_iff.mp h
        exact ⟨d, s', hs'⟩
    have hl₂ := hq.toLater.trans hmeets.later
    have hc₂ := hc.later hl₂
    cases hresult : (perform k (some frame) (callee.request values) c₁.world).1 with
    | error stop =>
      obtain ⟨stop', c₃, hq₃, rfl⟩ := herror stop c₂ (Prod.ext hresult hworld) hmeets.later
      refine ⟨c₃, rfl, .stop (hl₂.trans hq₃.toLater) (hmeets.table.quiet hc₂ hq₃) ?_⟩
      intro d s hvalue hd
      obtain ⟨s', hs', _⟩ := Option.bind_eq_some_iff.mp hvalue
      obtain ⟨v, hv⟩ := hmeets.ends d s' hs' (hnesting ▸ hd)
      rw [hresult] at hv
      cases hv
    | ok v =>
      have hproper := hmeets.proper v hresult
      obtain ⟨s₂, hs₂⟩ := Shape.exists_shown hc₂.sound.world.heap hproper
      -- Whatever value the call has, the plan goes on with the shape of the answer.
      have hnext : ∀ n d s, (Plan.call callee args next).eval n d (answers n d) = some s →
          (next s₂).eval n d (answers n d) = some s := by
        intro n d s h
        obtain ⟨s', hs', hrest⟩ := Option.bind_eq_some_iff.mp h
        cases (hmeets.right v hresult n d s' hs').unique hs₂
        exact hrest
      obtain ⟨c₃, hworld₃, hmeets₃⟩ := ih v c₂ s₂ (Prod.ext hresult hworld) hmeets.later hproper hs₂
        hc₂ (hp.later c c₂ hr hl₂) hmeets.table fun us hus =>
          (hneeds us hus).imp fun n d s h => ⟨d, s, hnext n d s h⟩
      refine ⟨c₃, hworld₃, (hmeets₃.after hl₂).imp fun n d s h => ⟨d, hnext n d s h, fun hd => ?_⟩⟩
      rw [hl₂.nesting]
      exact hd
  | @need c needed room next out henough hnot ih =>
    have hnext : ∀ n d s, (Plan.need needed room next).eval n d (answers n d) = some s →
        Plan.Enough n d needed room ∧ next.eval n d (answers n d) = some s := by
      intro n d s h
      rw [Plan.eval] at h
      split at h
      · next h' => exact ⟨h', h⟩
      · cases h
    by_cases h : Plan.Enough k c.world.nesting.current needed room
    · obtain ⟨c', hworld, hmeets⟩ := ih h hc hr ht fun us hus =>
        (hneeds us hus).imp fun n d s h => ⟨d, s, (hnext n d s h).2⟩
      exact ⟨c', hworld, hmeets.imp fun n d s h => ⟨d, (hnext n d s h).2, fun hd => hd⟩⟩
    · obtain ⟨stop, c', hq, rfl⟩ := hnot h
      refine ⟨c', rfl, .stop hq.toLater (ht.quiet hc hq) fun d s hs hd => h ?_⟩
      obtain ⟨hfuel, hroom⟩ := (hnext k d s hs).1
      exact ⟨hfuel, fun most hm => Nat.le_trans hd (hroom most hm)⟩

end Meeting

/-! ### The memoized trait -/

/-- A chain without tables whose cases are pure, with a table before it whose bottom leaves
the table alone and succeeds given some fuel. -/
structure Memoized (t : Trait) (id : TraitId) (memo : Memo) (relies : Client → Prop) (plans : Plans)
    (fuel : List Shape → Nat) : Prop where
  plain : ∀ l ∈ t.chain, l.memo? = none
  pure : Pure memo.store relies plans fun u => t.Link u ∨ u = t.memoized id memo
  bottom : ∀ k c args values, c.Reachable → relies c → (∀ v ∈ values, c.world.heap.Proper v) →
    Shape.AllShown c.world.heap args values →
    Ends (memo.bottom.run (perform k) values c.world) fun c' r => c.Quiet memo.store c' ∧
      (∀ b, r = .ok b → c'.world.heap.Proper b) ∧ (fuel args ≤ k → ∃ b, r = .ok b)

/-- The layer of the table adds no case. -/
theorem Trait.resolve?_memoized (t : Trait) (id : TraitId) (memo : Memo) (tag : String) :
    (t.memoized id memo).resolve? tag = t.resolve? tag := rfl

theorem Pure.mono {table : StoreId} {relies : Client → Prop} {plans : Plans}
    {traits traits' : Trait → Prop} (hp : Pure table relies plans traits)
    (h : ∀ t, traits' t → traits t) : Pure table relies plans traits' :=
  ⟨hp.later, hp.nesting, fun t name found ht => hp.plays t name found (h t ht)⟩

namespace Memoized
variable {t : Trait} {id : TraitId} {memo : Memo} {relies : Client → Prop} {plans : Plans}
  {fuel : List Shape → Nat} {active : List (List Shape)} {c : Client}

/-- A call of a link of the chain is plain. -/
theorem plain_call (hm : Memoized t id memo relies plans fuel) (k : Nat) {u : Trait} (hu : t.Link u)
    {args : List Shape} {values : List Value} (hc : c.Reachable) (hr : relies c)
    (hin : ∀ v ∈ values, c.world.heap.Proper v) (hs : Shape.AllShown c.world.heap args values) :
    Ends (u.call (perform k) values c.world) fun c' r => c.Quiet memo.store c' ∧
      Gives c'.world.heap r (u.eval plans k c.world.nesting.current args) := by
  have hpure : Pure memo.store relies plans t.Link := hm.pure.mono fun _ h => .inl h
  refine hpure.plain_call (fun u hu => ?_) (fun _ _ h h' => h.trans h') k hu hc hr hin hs
  exact hm.plain u.layer (hu.subset List.mem_cons_self)

/-- So it leaves the table right and comes to its value. -/
theorem link_call (hm : Memoized t id memo relies plans fuel) (k : Nat) {u : Trait} (hu : t.Link u)
    {args : List Shape} {values : List Value} (hc : c.Reachable) (hr : relies c)
    (ht : Table memo.store (t.ComesTo (plans.reserving fuel)) active c)
    (hin : ∀ v ∈ values, c.world.heap.Proper v) (hs : Shape.AllShown c.world.heap args values) :
    Ends (u.call (perform k) values c.world)
      (Meets memo.store (t.ComesTo (plans.reserving fuel)) active
        (fun n d => u.below (plans.reserving fuel) n d args) (k + 1) c.world.nesting.current c) := by
  obtain ⟨c', hworld, hquiet, hgives⟩ := hm.plain_call k hu hc hr hin hs
  have htable := ht.quiet hc hquiet
  cases heval : u.eval plans k c.world.nesting.current args with
  | none =>
    rw [heval] at hgives
    obtain ⟨stop, hstop⟩ := hgives
    refine ⟨c', hworld, ?_⟩
    rw [hstop]
    refine .stop hquiet.toLater htable fun d s h hd => ?_
    have hsome := u.eval_mono (Nat.le_refl k) hd (Trait.eval_of_reserving h)
    rw [heval] at hsome
    cases hsome
  | some s =>
    rw [heval] at hgives
    obtain ⟨v, hv, hproper, hshown⟩ := hgives
    refine ⟨c', hworld, hquiet.toLater, htable, fun v' hv' => ?_, fun v' hv' n d s' h => ?_,
      fun _ _ _ _ => ⟨v, hv⟩⟩
    · cases hv.symm.trans hv'
      exact hproper
    · cases hv.symm.trans hv'
      cases n with
      | zero => cases h
      | succ n =>
        rw [u.eval_unique (Trait.eval_of_reserving h) heval]
        exact hshown

variable (t id memo relies plans fuel)

/-- The calls that cases of the memoized trait make come out as they should. -/
def Calls (k : Nat) : Prop :=
  ∀ tag found, t.resolve? tag = some found → ∀ active callee c args values, c.Reachable →
    relies c → Table memo.store (t.ComesTo (plans.reserving fuel)) active c →
    (∀ v ∈ values, c.world.heap.Proper v) → Shape.AllShown c.world.heap args values →
    (∀ us ∈ active, t.Needs (plans.reserving fuel) us fun n d =>
      Frame.answers (plans.reserving fuel) n d ⟨t, found.owner⟩ callee args) →
    Ends (perform k (some ⟨t.memoized id memo, found.owner⟩) (callee.request values) c.world)
      (Meets memo.store (t.ComesTo (plans.reserving fuel)) active
        (fun n d => Frame.answers (plans.reserving fuel) n d ⟨t, found.owner⟩ callee args) k
        c.world.nesting.current c)

variable {t id memo relies plans fuel}

/-- The case that a miss runs comes to its value. -/
theorem dispatch (hm : Memoized t id memo relies plans fuel) {k : Nat}
    (hcalls : Calls t id memo relies plans fuel k) {s : Shape} {args : List Shape}
    {receiver : Value} {values : List Value} (hc : c.Reachable) (hr : relies c)
    (ht : Table memo.store (t.ComesTo (plans.reserving fuel)) active c)
    (hin : ∀ v ∈ receiver :: values, c.world.heap.Proper v)
    (hs : Shape.AllShown c.world.heap (s :: args) (receiver :: values))
    (hneeds : ∀ us ∈ active, t.Needs (plans.reserving fuel) us fun n d =>
      t.inside (plans.reserving fuel) n d (s :: args)) :
    Ends ((t.memoized id memo).dispatch (perform k) receiver (receiver :: values) c.world)
      (Meets memo.store (t.ComesTo (plans.reserving fuel)) active
        (fun n d => t.inside (plans.reserving fuel) n d (s :: args)) k
        c.world.nesting.current c) := by
  obtain ⟨hplays, hnone⟩ := hm.pure.dispatch (.inr rfl) k hc hr hin hs
  rw [t.resolve?_memoized] at hplays hnone
  cases hfound : t.resolve? s.caseName with
  | none =>
    obtain ⟨stop, hstop⟩ := hnone hfound
    rw [hstop]
    refine ⟨c, rfl, .stop (.refl c) ht fun d s' hs' => ?_⟩
    rw [Trait.inside, hfound] at hs'
    cases hs'
  | some found =>
    -- The plan of the case is that of the call, but for the fuel put aside.
    have hplan : ∀ n d s', t.inside (plans.reserving fuel) n d (s :: args) = some s' →
        (plans found.owner found.name (s :: args)).eval n d
          (Frame.answers (plans.reserving fuel) n d ⟨t, found.owner⟩) = some s' := by
      intro n d s' h
      rw [Trait.inside, hfound] at h
      exact (Plan.eval_reserving.mp h).2
    obtain ⟨c', hworld, hmeets⟩ := (hplays found hfound).meets hm.pure
      (fun callee c args values hc hr ht => hcalls _ found hfound active callee c args values hc hr ht)
      hc hr ht fun us hus => (hneeds us hus).imp fun n d s' h => ⟨d, s', hplan n d s' h⟩
    exact ⟨c', hworld, hmeets.imp fun n d s' h => ⟨d, hplan n d s' h, fun hd => hd⟩⟩

/-- A miss comes to the value of its case: the bottom goes in, and the value replaces it. -/
theorem fill (hm : Memoized t id memo relies plans fuel) {k : Nat}
    (hcalls : Calls t id memo relies plans fuel k) {s : Shape} {args : List Shape}
    {receiver : Value} {values : List Value} (hc : c.Reachable) (hr : relies c)
    (ht : Table memo.store (t.ComesTo (plans.reserving fuel)) active c)
    (hin : ∀ v ∈ receiver :: values, c.world.heap.Proper v)
    (hs : Shape.AllShown c.world.heap (s :: args) (receiver :: values))
    (hneeds : ∀ us ∈ active, t.Needs (plans.reserving fuel) us fun n d =>
      t.below (plans.reserving fuel) n d (s :: args)) :
    Ends (memo.fill (perform k) (t.memoized id memo) receiver (receiver :: values)
        ((receiver :: values).map Key.ofValue) c.world)
      (Meets memo.store (t.ComesTo (plans.reserving fuel)) active
        (fun n d => t.inside (plans.reserving fuel) n d (s :: args)) k
        c.world.nesting.current c) := by
  obtain ⟨c₁, hworld₁, hquiet, hproper, hok⟩ := hm.bottom k c _ _ hc hr hin hs
  cases hbottom : (memo.bottom.run (perform k) (receiver :: values) c.world).1 with
  | error stop =>
    rw [Memo.fill_of_bottom (Prod.ext hbottom hworld₁)]
    refine ⟨c₁, rfl, .stop hquiet.toLater (ht.quiet hc hquiet) fun d s' h => ?_⟩
    obtain ⟨_, _, found, _, _, hplan⟩ := Trait.inside_eq_some.mp h
    obtain ⟨b, hb⟩ := hok (Plan.eval_reserving.mp hplan).1
    cases hbottom.symm.trans hb
  | ok b =>
    obtain ⟨hl₂, ht₂⟩ := ht.install hc hquiet (List.cons_ne_nil _ _) hin hs (hproper b hbottom)
    obtain ⟨c₃, hworld₃, hmeets⟩ := hm.dispatch hcalls (hc.later hl₂) (hm.pure.later _ _ hr hl₂) ht₂
      (fun v hv => (hin v hv).extends hl₂.extends_) (hl₂.allShown hc hin hs) fun us hus => by
        rcases List.mem_cons.mp hus with rfl | hus
        · exact Trait.needs_inside
        · exact (hneeds us hus).inside
    have hl₃ := hl₂.trans hmeets.later
    have hin₃ := fun v hv => (hin v hv).extends hl₃.extends_
    have hs₃ := hl₃.allShown hc hin hs
    have hactive : ∀ us ∈ (s :: args) :: active, us = s :: args ∨ us ∈ active :=
      fun us hus => List.mem_cons.mp hus
    cases hcase : ((t.memoized id memo).dispatch (perform k) receiver (receiver :: values)
        ((c₁.world.storeSet memo.store ((receiver :: values).map Key.ofValue) b).reclaimed
          c.world.nextObject)).1 with
    | ok v =>
      rw [Memo.fill_ok (Prod.ext hbottom hworld₁) (Prod.ext hcase hworld₃)]
      refine ⟨_, rfl, hl₃.trans (c₃.later_updateStore memo.store _), ?_, fun v' hv' => ?_,
        fun v' hv' => ?_, fun _ _ _ _ => ⟨v, rfl⟩⟩
      · refine hmeets.table.set (hc.later hl₃) (List.cons_ne_nil _ _) hin₃ hs₃ hactive
          (hmeets.proper v hcase) fun _ s' hcomes => ?_
        obtain ⟨n, d, heval⟩ := hcomes
        exact hmeets.right v hcase n (d + 1) s' (Trait.eval_eq_some.mp heval).2
      · exact hmeets.proper v' (hcase.trans hv')
      · exact hmeets.right v' (hcase.trans hv')
    | error stop =>
      rw [Memo.fill_error (Prod.ext hbottom hworld₁) (Prod.ext hcase hworld₃)]
      refine ⟨_, rfl, .stop (hl₃.trans (c₃.later_updateStore memo.store _))
        (hmeets.table.erase (hc.later hl₃) hin₃ hs₃ hactive) fun d s' h hd => ?_⟩
      obtain ⟨v, hv⟩ := hmeets.ends d s' h (hl₂.nesting ▸ hd)
      cases hcase.symm.trans hv

/-- A call through the table comes to its value: on a hit too, for what is in progress has
none. -/
theorem memo_call (hm : Memoized t id memo relies plans fuel) {k depth : Nat}
    (hcalls : Calls t id memo relies plans fuel k) {s : Shape} {args : List Shape}
    {receiver : Value} {values : List Value} (hc : c.Reachable) (hr : relies c)
    (hdepth : c.world.nesting.current = depth + 1)
    (ht : Table memo.store (t.ComesTo (plans.reserving fuel)) active c)
    (hin : ∀ v ∈ receiver :: values, c.world.heap.Proper v)
    (hs : Shape.AllShown c.world.heap (s :: args) (receiver :: values))
    (hneeds : ∀ us ∈ active, t.Needs (plans.reserving fuel) us fun n d =>
      t.below (plans.reserving fuel) n d (s :: args)) :
    Ends (memo.call (perform k) (t.memoized id memo) receiver (receiver :: values) c.world)
      (Meets memo.store (t.ComesTo (plans.reserving fuel)) active
        (fun n d => t.eval (plans.reserving fuel) n d (s :: args)) k depth c) := by
  have hpath : Key.path (receiver :: values) = .ok ((receiver :: values).map Key.ofValue) := rfl
  rw [Memo.call_eq, hpath]
  dsimp only
  cases hfound : c.world.stored? memo.store ((receiver :: values).map Key.ofValue) with
  | some hit =>
    obtain ⟨hproper, hright⟩ := ht.hit hs hfound
    refine ⟨c, rfl, .refl c, ht, fun v hv => ?_, fun v hv n d s' heval => ?_,
      fun _ _ _ _ => ⟨hit, rfl⟩⟩
    · cases hv
      exact hproper
    · cases hv
      by_cases hactive : (s :: args) ∈ active
      · rw [(hneeds _ hactive).eval_eq_none n d] at heval
        cases heval
      · exact hright hactive s' ⟨n, d, heval⟩
  | none =>
    obtain ⟨c', hworld, hmeets⟩ := hm.fill hcalls hc hr ht hin hs hneeds
    refine ⟨c', hworld, hmeets.imp fun n d s' heval =>
      ⟨d + 1, (Trait.eval_eq_some.mp heval).2, fun hd => ?_⟩⟩
    rw [hdepth]
    exact Nat.succ_le_succ hd

/-- A call of the memoized trait comes to its value if the calls in it do. -/
theorem call_with (hm : Memoized t id memo relies plans fuel) {k : Nat}
    (hcalls : Calls t id memo relies plans fuel k) {args : List Shape} {values : List Value}
    (hc : c.Reachable) (hr : relies c)
    (ht : Table memo.store (t.ComesTo (plans.reserving fuel)) active c)
    (hin : ∀ v ∈ values, c.world.heap.Proper v) (hs : Shape.AllShown c.world.heap args values)
    (hneeds : ∀ us ∈ active, t.Needs (plans.reserving fuel) us fun n d =>
      t.below (plans.reserving fuel) n d args) :
    Ends ((t.memoized id memo).call (perform k) values c.world)
      (Meets memo.store (t.ComesTo (plans.reserving fuel)) active
        (fun n d => t.eval (plans.reserving fuel) n d args) k c.world.nesting.current c) := by
  cases values with
  | nil =>
    cases args with
    | nil =>
      refine ⟨c, rfl, .stop (.refl c) ht fun d s' h => ?_⟩
      cases (Trait.eval_eq_some.mp h).2
    | cons => cases hs
  | cons receiver rest =>
    cases args with
    | nil => cases hs
    | cons s ss =>
      change Ends ((t.memoized id memo).guarded
        (memo.call (perform k) (t.memoized id memo) receiver (receiver :: rest)) c.world) _
      by_cases hroom : t.layer.maxDepth ≤ c.world.nesting.current
      · have hfull : (t.memoized id memo).layer.maxDepth ≤ c.world.nesting.current := hroom
        rw [Trait.guarded_full hfull]
        refine ⟨c, rfl, .stop (.refl c) ht fun d s' h hd => ?_⟩
        exact absurd (Trait.eval_eq_some.mp h).1 (Nat.not_lt.mpr (Nat.le_trans hroom hd))
      · have hc' : (c.withNesting c.world.nesting.inside).Reachable :=
          hc.tail (c.step_withNesting _)
        refine Trait.guarded_ends hroom (hm.memo_call hcalls hc'
          (hm.pure.nesting c _ hr) (Nesting.current_inside _) (ht.withNesting hc _) hin hs hneeds) ?_
        intro c' r hmeets
        exact ⟨hmeets.later.nesting, hmeets.later.outside,
          hmeets.table.withNesting (hc'.later hmeets.later) _, hmeets.proper, hmeets.right,
          hmeets.ends⟩

/-- Calls from cases come out as they should, with any fuel. -/
theorem calls (hm : Memoized t id memo relies plans fuel) (k : Nat) :
    Calls t id memo relies plans fuel k := by
  induction k with
  | zero =>
    intro tag found hfound active callee c args values hc hr ht hin hs hneeds
    refine ⟨c, rfl, .stop (.refl c) ht fun d s h => ?_⟩
    obtain ⟨_, _, hnone⟩ := Option.bind_eq_some_iff.mp h
    cases hnone
  | succ n ih =>
    intro tag found hfound active callee c args values hc hr ht hin hs hneeds
    rw [perform_request]
    cases callee with
    | again =>
      obtain ⟨c', hworld, hmeets⟩ := hm.call_with ih hc hr ht hin hs hneeds
      refine ⟨c', hworld, hmeets.later, hmeets.table, hmeets.proper, fun v hv m d s h => ?_,
        hmeets.ends⟩
      cases m with
      | zero => cases h
      | succ m => exact hmeets.right v hv m d s h
    | base =>
      unfold Frame.answers Frame.callee?
      dsimp only
      cases hbase : found.owner.base? with
      | none => exact ⟨c, rfl, .stop (.refl c) ht fun d s h => by cases h⟩
      | some u =>
        have hu : t.Link u := (resolve_link hfound).trans (Trait.base_link hbase)
        exact hm.link_call n hu hc hr ht hin hs

/-- A call of the memoized trait comes to its value, and leaves a right table. -/
theorem call (hm : Memoized t id memo relies plans fuel) (k : Nat) {args : List Shape}
    {values : List Value} (hc : c.Reachable) (hr : relies c)
    (ht : Table memo.store (t.ComesTo (plans.reserving fuel)) [] c)
    (hin : ∀ v ∈ values, c.world.heap.Proper v) (hs : Shape.AllShown c.world.heap args values) :
    Ends ((t.memoized id memo).call (perform k) values c.world)
      (Meets memo.store (t.ComesTo (plans.reserving fuel)) []
        (fun n d => t.eval (plans.reserving fuel) n d args) k c.world.nesting.current c) :=
  hm.call_with (hm.calls k) hc hr ht hin hs fun us hus => by cases hus

end Memoized

end OpenVariants

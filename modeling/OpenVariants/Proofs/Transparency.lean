import OpenVariants.Proofs.Memoized

/-! Memoization does not show.

A program calls a memoized pure trait, with whatever comes of that, purges its table and
lets go of values as it likes. Where the plain call of a tuple has a value the memoized
call has the same, at any moment (`Memoized.transparent`). -/
namespace OpenVariants.Memoized

open Client (Steps Reachable)

variable {t : Trait} {id : TraitId} {memo : Memo} {relies : Client → Prop} {plans : Plans}
  {fuel : List Shape → Nat} {c : Client}

/-- What a program does with a memoized trait: it goes on without touching the table,
calls the trait however that comes out, and purges the table. -/
inductive Use (t : Trait) (id : TraitId) (memo : Memo) (relies : Client → Prop) :
    Client → Client → Prop
  | steps {c c' : Client} (hsteps : Steps c c')
    (hstore : c'.world.stores[memo.store]? = c.world.stores[memo.store]?)
    (howned : ∀ path v, c.world.held? memo.store path = some (.strong v) →
      c'.world.heap.holds v = true) : Use t id memo relies c c'
  | call (c : Client) (k : Nat) (values : List Value) (hr : relies c)
    (hin : ∀ v ∈ values, c.world.heap.Proper v) :
    Use t id memo relies c
      {c with world := ((t.memoized id memo).call (perform k) values c.world).2}
  | purge (c : Client) : Use t id memo relies c (c.updateStore memo.store Store.purged)

abbrev Uses (t : Trait) (id : TraitId) (memo : Memo) (relies : Client → Prop) :
    Client → Client → Prop := Relation.ReflTransGen (Use t id memo relies)

/-- A settlement is a use while the memoized trait has a name. -/
theorem Use.settled (hc : c.Reachable) (hroots : ∀ v ∈ c.world.roots, c.world.heap.Proper v)
    {data : List Data} (hd : data ⊆ c.data)
    (hkept : ∀ d ∈ data, ∀ v ∈ d.singletons, v ∈ c.world.roots) {name : String} {i : TraitId}
    (hname : (name, Binding.trait i) ∈ c.world.bindings)
    (htrait : c.world.traits[i]? = some (t.memoized id memo)) :
    Use t id memo relies c {c with world := c.world.settled, data} := by
  refine .steps (.single (hc.sound.step_settled hroots hd hkept)) rfl fun path v hheld => ?_
  have hstore : memo.store ∈ (t.memoized id memo).heldStores := List.mem_cons_self
  exact (Heap.retains_collect hc.sound.world.heap c.world.roots hroots).kept v
    (World.mem_roots hheld hstore hname htrait)

/-- A use is made of steps and leaves a right table. -/
theorem use (hm : Memoized t id memo relies plans fuel) {c' : Client} (hc : c.Reachable)
    (ht : Table memo.store (t.ComesTo (plans.reserving fuel)) [] c)
    (hu : Use t id memo relies c c') :
    Steps c c' ∧ Table memo.store (t.ComesTo (plans.reserving fuel)) [] c' := by
  cases hu with
  | steps hsteps hstore howned => exact ⟨hsteps, ht.steps hc hsteps hstore howned⟩
  | call k values hr hin =>
    obtain ⟨args, hs⟩ := Shape.exists_allShown fun v hv =>
      Shape.exists_shown hc.sound.world.heap (hin v hv)
    obtain ⟨c', hworld, hmeets⟩ := hm.call k hc hr ht hin hs
    rw [hworld, hmeets.later.eq_withWorld]
    exact ⟨hmeets.later.steps, hmeets.table⟩
  | purge => exact ⟨(c.later_updateStore memo.store _).steps, ht.purged⟩

theorem uses (hm : Memoized t id memo relies plans fuel) {c' : Client} (hc : c.Reachable)
    (ht : Table memo.store (t.ComesTo (plans.reserving fuel)) [] c)
    (hu : Uses t id memo relies c c') :
    Steps c c' ∧ Table memo.store (t.ComesTo (plans.reserving fuel)) [] c' := by
  induction hu with
  | refl => exact ⟨.refl, ht⟩
  | tail _ huse ih =>
    obtain ⟨hsteps, htable⟩ := ih
    obtain ⟨hsteps', htable'⟩ := hm.use (hc.trans hsteps) htable huse
    exact ⟨hsteps.trans hsteps', htable'⟩

/-- **A memoized call gives what the plain call gives.** If the plain call of a tuple has
a value, at some moment of a program that began with an empty table, then at any later
moment, with no more calls active, the memoized call of the tuple has a value that is the
same, given some fuel. -/
theorem transparent (hm : Memoized t id memo relies plans fuel) {start : Client}
    (hstart : start.Reachable)
    (hempty : start.world.stores[memo.store]? = some ⟨.strong, .nil⟩)
    (hc : Uses t id memo relies start c) (hr : relies c) {n : Nat} {values : List Value} {r : Value}
    {w : World} (hin : ∀ v ∈ values, c.world.heap.Proper v)
    (hcall : t.call (perform n) values c.world = (.ok r, w)) :
    ∃ enough, ∀ c' : Client, Uses t id memo relies {c with world := w} c' → relies c' →
      (∀ v ∈ r :: values, c'.world.heap.Proper v) →
      c'.world.nesting.current ≤ c.world.nesting.current → ∀ m, enough ≤ m →
      ∃ v w', (t.memoized id memo).call (perform m) values c'.world = (.ok v, w') ∧
        v.same r = true := by
  obtain ⟨hsteps, htable⟩ := hm.uses hstart (.empty hempty) hc
  have hreach : c.Reachable := hstart.trans hsteps
  obtain ⟨args, hs⟩ := Shape.exists_allShown fun v hv =>
    Shape.exists_shown hreach.sound.world.heap (hin v hv)
  obtain ⟨c₁, hworld, hquiet, hgives⟩ := hm.plain_call n (.refl t) hreach hr hin hs
  rw [hcall] at hworld hgives
  cases hworld
  rw [hquiet.toLater.eq_withWorld]
  have hreach₁ := hreach.later hquiet.toLater
  -- The plain call shows that the plans have a value, of the shape of the result.
  cases heval : t.eval plans n c.world.nesting.current args with
  | none =>
    rw [heval] at hgives
    obtain ⟨stop, hstop⟩ := hgives
    cases hstop
  | some s =>
    rw [heval] at hgives
    obtain ⟨_, hr₁, _, hshown₁⟩ := hgives
    cases hr₁
    obtain ⟨enough, henough⟩ := Trait.eval_reserving fuel heval
    refine ⟨enough, fun c' huses hr' hin' hroom m hle => ?_⟩
    rw [List.forall_mem_cons] at hin'
    obtain ⟨hsteps', htable'⟩ := hm.uses hreach₁ (htable.quiet hreach hquiet) huses
    have hreach' : c'.Reachable := hreach₁.trans hsteps'
    have hbefore := hreach₁.before hsteps'
    have hsound' := hreach'.sound.world.heap
    have hs' : Shape.AllShown c'.world.heap args values :=
      (hquiet.toLater.allShown hreach hin hs).later hbefore hsound' fun v hv => (hin'.2 v hv).holds
    obtain ⟨c'', hworld'', hmeets⟩ := hm.call m hreach' hr' htable' hin'.2 hs'
    have hvalue := t.eval_mono hle (Nat.le_refl _) henough
    obtain ⟨v, hv⟩ := hmeets.ends _ s hvalue hroom
    refine ⟨v, c''.world, Prod.ext hv hworld'', ?_⟩
    have hreach'' := hreach'.later hmeets.later
    have hshown : s.Shown c''.world.heap r :=
      hmeets.later.shown hreach' hin'.1 (hshown₁.later hbefore hsound' hin'.1.holds)
    exact (hreach''.sound.world.same_iff_shape (hmeets.proper v hv)
      (hin'.1.extends hmeets.later.extends_) (hmeets.right v hv m _ s hvalue) hshown).mpr rfl

/-! ### A trait that counts down -/

/-- Count down to zero, and leave that to the base; go round for ever on anything else than
an integer. -/
def count : Handler
  | [.int i] => Program.perform (if i = 0 then .base [.int i] else .recur [.int (i - 1)])
  | args => Program.perform (.recur args)

def zeros : Trait :=
  ⟨⟨0, "zeros", none, [(wildcard, .handler fun _ => .done (.ok (.text "zero")))], none, 9⟩, []⟩

def counting : Trait :=
  ⟨⟨1, "counting", none, [(wildcard, .handler count)], none, 9⟩, [zeros.layer]⟩

def counted : Memo := ⟨0, .value (.text "bottom")⟩

/-- The plan of `count`. -/
def countPlan : List Shape → Plan
  | [.leaf (.int i)] =>
    if i = 0 then .call .base [.leaf (.int i)] .done else .call .again [.leaf (.int (i - 1))] .done
  | args => .call .again args .done

/-- The plans of the chain, by the bases of the owner. -/
def countPlans : Plans := fun owner _ args =>
  if owner.bases.isEmpty then .done (.leaf (.text "zero")) else countPlan args

theorem own?_wildcard {t : Trait} {body : Handler} (ht : t.layer.cases = [(wildcard, .handler body)])
    {name : String} (h : name ≠ wildcard) : t.own? name = none := by
  simp [Trait.own?, Layer.case?, ht, List.lookup_cons, beq_eq_false_iff_ne.mpr h]

theorem resolve?_zeros (name : String) :
    zeros.resolve? name =
      some ⟨zeros, wildcard, .handler fun _ => .done (.ok (.text "zero"))⟩ := by
  by_cases h : name = wildcard
  · rw [h]
    rfl
  · change (zeros.own? name).or (none.or (zeros.own? wildcard)) = _
    rw [own?_wildcard rfl h]
    rfl

theorem resolve?_counting (name : String) :
    counting.resolve? name = some ⟨counting, wildcard, .handler count⟩ := by
  by_cases h : name = wildcard
  · rw [h]
    rfl
  · have hnone : Trait.own? ⟨counting.layer, [zeros.layer]⟩ name = none := own?_wildcard rfl h
    have hbase : Trait.own? ⟨zeros.layer, []⟩ name = none := own?_wildcard rfl h
    change Trait.resolveAlong name none counting.layer [zeros.layer] = _
    simp only [Trait.resolveAlong, hnone, hbase]
    rfl

theorem plays_count {table : StoreId} {k : Nat} {frame : Frame} {c : Client} {args : List Shape}
    {values : List Value} (hin : ∀ v ∈ values, c.world.heap.Proper v)
    (hs : Shape.AllShown c.world.heap args values) :
    Plays table k frame (countPlan args) c
      ((count values).run (perform k) (some frame) c.world) := by
  by_cases h : ∃ i, args = [.leaf (.int i)]
  · obtain ⟨i, rfl⟩ := h
    obtain ⟨v, rfl⟩ : ∃ v, values = [v] := by
      match values, hs with
      | [v], _ => exact ⟨v, rfl⟩
    have hv : v = .int i := by
      have hk := hs.1.1
      cases v with
      | function _ label => cases label <;> cases hk
      | _ => cases hk <;> rfl
    subst hv
    simp only [count, countPlan]
    split
    · exact plays_call .base hin hs
    · have hless : (Shape.leaf (.int (i - 1))).Shown c.world.heap (.int (i - 1)) := ⟨rfl, rfl⟩
      refine plays_call .again (fun u hu => ?_) ⟨hless, trivial⟩
      rw [List.mem_singleton.mp hu]
      exact Heap.proper_of_plain rfl
  · have hplan : countPlan args = .call .again args .done := by
      unfold countPlan
      split
      · next i => exact absurd ⟨i, rfl⟩ h
      · rfl
    have hcount : count values = Program.perform (.recur values) := by
      unfold count
      split
      · next i =>
        refine absurd ⟨i, ?_⟩ h
        match args, hs with
        | [.leaf _], ⟨⟨hk, _⟩, _⟩ => rw [← hk]; rfl
        | [.node _ _], ⟨⟨_, _, hk, _⟩, _⟩ => cases hk
      · rfl
    rw [hplan, hcount]
    exact plays_call .again hin hs

/-- The links of the chain are its two traits. -/
theorem link_counting {u : Trait} (h : counting.Link u) : u = counting ∨ u = zeros := by
  have hchain : u.chain = counting.chain ∨ u.chain = zeros.chain := by
    rcases List.suffix_cons_iff.mp h with h | h
    · exact .inl h
    · rcases List.suffix_cons_iff.mp h with h | h
      · exact .inr h
      · cases List.suffix_nil.mp h
  obtain ⟨layer, bases⟩ := u
  rcases hchain with h | h <;> cases h
  · exact .inl rfl
  · exact .inr rfl

theorem memoized_counting :
    Memoized counting 2 counted (fun _ => True) countPlans fun _ => 0 where
  plain l hl := by
    rcases List.mem_cons.mp hl with rfl | hl
    · rfl
    · rw [List.mem_singleton.mp hl]
      rfl
  pure := by
    refine ⟨fun _ _ _ _ => trivial, fun _ _ _ => trivial, ?_⟩
    intro u name found hu hfound k c args values hc _ hin hs
    have hresolve : u.resolve? name = counting.resolve? name ∨ u = zeros := by
      rcases hu with hlink | rfl
      · exact (link_counting hlink).imp_left fun h => by rw [h]
      · exact .inl rfl
    rcases hresolve with hresolve | rfl
    · rw [hresolve, resolve?_counting] at hfound
      cases hfound
      exact plays_count hin hs
    · rw [resolve?_zeros] at hfound
      cases hfound
      have hzero : (Shape.leaf (.text "zero")).Shown c.world.heap (.text "zero") := ⟨rfl, rfl⟩
      exact .done (.refl counted.store c) (Heap.proper_of_plain rfl) hzero
  bottom k c args values hc _ hin hs := by
    refine ⟨c, rfl, .refl _ c, fun b hb => ?_, fun _ => ⟨_, rfl⟩⟩
    cases hb
    exact Heap.proper_of_plain rfl

/-- A program with an empty table. -/
def counter : Client := {world := {stores := #[⟨.strong, .nil⟩]}}

theorem counter_reachable : counter.Reachable := .single (.other {} counter.world rfl rfl rfl)

/-- The program after a plain call. -/
def plainly : Client :=
  {counter with world := (counting.call (perform 9) [.int 2] counter.world).2}

/-- The program after a memoized call that went round. -/
def rounded : Client :=
  {plainly with world :=
    ((counting.memoized 2 counted).call (perform 9) [.bool true] plainly.world).2}

/-- Two counts down to zero through the table as it does without, also after a call that
went round. -/
theorem zero_after_round :
    counting.call (perform 9) [.int 2] counter.world = (.ok (.text "zero"), plainly.world) ∧
    ∃ enough, ∀ m, enough ≤ m → ∃ v w',
      (counting.memoized 2 counted).call (perform m) [.int 2] rounded.world = (.ok v, w') ∧
        v.same (.text "zero") = true := by
  have hplain : ∀ (h : Heap) (values : List Value), values.all (·.object?.isNone) = true →
      ∀ v ∈ values, h.Proper v := by
    intro h values hall v hv
    exact Heap.proper_of_plain (Option.isNone_iff_eq_none.mp (List.all_eq_true.mp hall v hv))
  have hresult : (counting.call (perform 9) [.int 2] counter.world).1 = .ok (.text "zero") := by
    decide +kernel
  have hcall : counting.call (perform 9) [.int 2] counter.world =
      (.ok (.text "zero"), plainly.world) := Prod.ext hresult rfl
  refine ⟨hcall, ?_⟩
  obtain ⟨enough, h⟩ := memoized_counting.transparent counter_reachable rfl .refl trivial
    (hplain _ _ rfl) hcall
  exact ⟨enough, h rounded (.single (.call plainly 9 [.bool true] trivial (hplain _ _ rfl))) trivial
    (hplain _ _ rfl) (by decide +kernel)⟩

end OpenVariants.Memoized

import OpenVariants.Proofs.Calls
import OpenVariants.Proofs.Likeness

/-! Raising the limit on nested calls.

Two runs of a program under two limits are alike until a call is refused under the lower
one. Where bodies pass such a refusal on, it is all that comes of the run then
(`Moment.Doomed`). So what a call comes to under a limit, unless it exceeds that, it comes
to under every higher one, and leaves the same in every store (`Trait.limit_raised`). -/
namespace OpenVariants

/-! ### Limits -/

def Layer.limited (d : Nat) (l : Layer) : Layer := {l with maxDepth := d}

/-- A trait with another limit in all of its chain. -/
def Trait.limited (d : Nat) (t : Trait) : Trait := ⟨t.layer.limited d, t.bases.map (·.limited d)⟩

def Resolution.limited (d : Nat) (r : Resolution) : Resolution := {r with owner := r.owner.limited d}

/-- A world in which all traits have a limit. -/
def World.limited (d : Nat) (w : World) : World := w.withTraits (w.traits.map (·.limited d))

/-- A call was refused. -/
def Fault.IsLimit (f : Fault) : Prop := ∃ name limit, f = .dispatch (.recursionLimit name limit)

theorem settled_isLimit : Program.Settled Fault.IsLimit := by
  rintro _ site ⟨name, limit, rfl⟩
  rfl

/-- The bodies of cases and of bottoms pass refusals on. -/
structure Layer.Relays (l : Layer) : Prop where
  cases : ∀ c ∈ l.cases, c.2.Conforms (fun _ => True) Fault.IsLimit
  memo : ∀ memo, l.memo? = some memo → memo.bottom.Conforms (fun _ => True) Fault.IsLimit

def Trait.Relays (t : Trait) : Prop := ∀ l ∈ t.chain, l.Relays

namespace Trait

theorem Relays.link {t u : Trait} (ht : t.Relays) (hlink : t.Link u) : u.Relays :=
  fun l hl => ht l (hlink.subset hl)

theorem base?_limited (d : Nat) (t : Trait) :
    (t.limited d).base? = t.base?.map (·.limited d) := by
  unfold base? limited
  cases t.bases <;> rfl

theorem own?_limited (d : Nat) (t : Trait) (name : String) :
    (t.limited d).own? name = (t.own? name).map (·.limited d) := by
  unfold own?
  rw [Option.map_map]
  rfl

theorem resolveAlong_limited (d : Nat) (tag : String) (pending : Option Resolution) (layer : Layer)
    (bases : List Layer) :
    resolveAlong tag (pending.map (·.limited d)) (layer.limited d) (bases.map (·.limited d)) =
      (resolveAlong tag pending layer bases).map (·.limited d) := by
  induction bases generalizing pending layer with
  | nil =>
    have hown := own?_limited d ⟨layer, []⟩
    simp only [limited, List.map_nil] at hown
    simp only [resolveAlong, List.map_nil, hown, Option.map_or]
  | cons next rest ih =>
    have hown := own?_limited d ⟨layer, next :: rest⟩
    simp only [limited, List.map_cons] at hown
    simp only [resolveAlong, List.map_cons, hown]
    cases own? ⟨layer, next :: rest⟩ tag with
    | some found => rfl
    | none =>
      simp only [Option.map_none, ← Option.map_or]
      exact ih _ _

theorem resolve?_limited (d : Nat) (t : Trait) (tag : String) :
    (t.limited d).resolve? tag = (t.resolve? tag).map (·.limited d) :=
  resolveAlong_limited d tag none t.layer t.bases

theorem limited_limited (d d' : Nat) (t : Trait) : (t.limited d).limited d' = t.limited d' := by
  simp only [limited, List.map_map]
  rfl

end Trait

/-- What a case learns of its call is not the limit. -/
theorem Frame.info_limited (d : Nat) (t owner : Trait) :
    Frame.info ⟨t.limited d, owner.limited d⟩ = Frame.info ⟨t, owner⟩ := by
  unfold Frame.info
  rw [Trait.base?_limited]
  cases owner.base? <;> rfl

/-! ### Two runs -/

/-- Traits that relay refusals, under one limit and under another. -/
def Trait.Raised (d d' : Nat) (t u : Trait) : Prop :=
  ∃ plain : Trait, plain.Relays ∧ t = plain.limited d ∧ u = plain.limited d'

namespace Trait.Raised
variable {d d' : Nat} {t u : Trait}

theorem base (h : t.Raised d d' u) : Option.Rel (Raised d d') t.base? u.base? := by
  obtain ⟨plain, hplain, rfl, rfl⟩ := h
  rw [base?_limited, base?_limited]
  cases hbase : plain.base? with
  | none => exact .none
  | some base => exact .some ⟨base, hplain.link (base_link hbase), rfl, rfl⟩

end Trait.Raised

def Likeness.raising (d d' : Nat) (traits : Array Trait) (htraits : ∀ t ∈ traits, t.Relays) :
    Likeness where
  owners := Trait.Raised d d'
  called := Trait.Raised d d'
  final := Fault.IsLimit
  left := traits.map (·.limited d)
  right := traits.map (·.limited d')
  settled := settled_isLimit
  owned := id
  name := by
    rintro t u ⟨plain, hplain, rfl, rfl⟩
    rfl
  memo := by
    rintro t u ⟨plain, hplain, rfl, rfl⟩
    rfl
  bottom := by
    rintro t u memo ⟨plain, hplain, rfl, rfl⟩ hmemo
    exact (hplain plain.layer List.mem_cons_self).memo memo hmemo
  base := Trait.Raised.base
  table id := by
    rw [Array.getElem?_map, Array.getElem?_map]
    cases ht : traits[id]? with
    | none => exact .none
    | some t => exact .some ⟨t, htraits t (Array.mem_of_getElem? ht), rfl, rfl⟩

/-- The same case is found under every limit. -/
theorem Likeness.finds_raised {d d' : Nat} {traits : Array Trait}
    {htraits : ∀ t ∈ traits, t.Relays} {t u : Trait} (h : t.Raised d d' u) (name : String) :
    (raising d d' traits htraits).Finds t u name := by
  obtain ⟨plain, hplain, rfl, rfl⟩ := h
  cases hfound : plain.resolve? name with
  | none =>
    refine .nothing ?_ ?_ <;> rw [Trait.resolve?_limited, hfound] <;> rfl
  | some found =>
    refine .case (?_ : _ = some (found.limited d)) (?_ : _ = some (found.limited d')) ?_ ?_
    · rw [Trait.resolve?_limited, hfound]
      rfl
    · rw [Trait.resolve?_limited, hfound]
      rfl
    · exact ⟨found.owner, hplain.link (resolve_link hfound), rfl, rfl⟩
    · intro args
      have hlayer := hplain.link (resolve_link hfound) _ List.mem_cons_self
      refine ((hlayer.cases _ (resolve_mem hfound)).program (fun _ => trivial) (fun _ => trivial)
        settled_isLimit _ _ args).mono fun q _ _ => ?_
      exact congrArg some ((Frame.info_limited d _ _).trans (Frame.info_limited d' _ _).symm)

/-! ### After a refusal -/

/-- What waits passes a fault on. -/
def Pending.Passes (f : Fault) : Pending → Prop
  | .body _ _ next => (next (.error f)).Raises f
  | _ => True

namespace Moment

/-- Nothing but a fault will come of what is going on. -/
structure Doomed (f : Fault) (m : Moment) : Prop where
  control : m.control = .answer (.error (.fault f)) ∨
    ∃ n frame p, m.control = .run n frame p ∧ p.Raises f
  stack : ∀ p ∈ m.stack, p.Passes f

theorem Doomed.next {f : Fault} {m : Moment} (hm : m.Doomed f) : m.next.Doomed f := by
  obtain ⟨c, stack, w⟩ := m
  obtain ⟨hcontrol, hstack⟩ := hm
  dsimp only at hcontrol hstack
  rcases hcontrol with rfl | ⟨n, frame, p, rfl, hp⟩
  · cases stack with
    | nil => exact ⟨.inl rfl, hstack⟩
    | cons p stack =>
      obtain ⟨hp, hrest⟩ := List.forall_mem_cons.mp hstack
      cases p with
      | body n frame next => exact ⟨.inr ⟨n, frame, _, rfl, hp⟩, hrest⟩
      | call t args segment => exact ⟨.inl rfl, hrest⟩
      | bottom n memo t receiver args path since => exact ⟨.inl rfl, hrest⟩
      | case memo path => exact ⟨.inl rfl, hrest⟩
  · cases hp with
    | fail => exact ⟨.inl rfl, hstack⟩
    | ask h | make h | makeFunction h | makeLazy h => exact ⟨.inr ⟨n, frame, _, rfl, h _⟩, hstack⟩
    | log h => exact ⟨.inr ⟨n, frame, _, rfl, h⟩, hstack⟩

/-- What is doomed ends with the fault. -/
theorem Doomed.ended {f : Fault} {result : Except Stop Value} {w : World}
    (h : Doomed f (ended result w)) : result = .error (.fault f) := by
  rcases h.control with hcontrol | ⟨n, frame, p, hcontrol, _⟩
  · cases hcontrol
    rfl
  · cases hcontrol

end Moment

namespace Likeness

/-- Bodies that are alike in two runs pass on what is final. -/
theorem Waits.passes {L : Likeness} {p q : Pending} (h : L.Waits p q) {f : Fault}
    (hf : L.final f) : p.Passes f := by
  cases h with
  | body _ _ hfinal => exact hfinal f hf
  | _ => trivial

theorem passes_of_waits {L : Likeness} {stack stack' : List Pending}
    (h : List.Forall₂ L.Waits stack stack') {f : Fault} (hf : L.final f) :
    ∀ p ∈ stack, p.Passes f := by
  induction h with
  | nil => exact List.forall_mem_nil _
  | cons hp _ ih => exact List.forall_mem_cons.mpr ⟨hp.passes hf, ih⟩

/-- After a call is refused in one of two runs that were alike, that run is doomed. -/
theorem Moments.doomed {L : Likeness} {m m' : Moment} (h : L.Moments m m') {n : Nat} {t : Trait}
    {receiver : Value} {rest : List Value} (hcall : m.control = .call n t (receiver :: rest))
    (hfull : t.layer.maxDepth ≤ m.world.nesting.current)
    (hfinal : L.final (.dispatch (.recursionLimit t.name t.layer.maxDepth))) :
    m.next.Doomed (.dispatch (.recursionLimit t.name t.layer.maxDepth)) := by
  obtain ⟨c, stack, w⟩ := m
  have hstack := h.stack
  dsimp only at hcall hfull hstack
  subst hcall
  have hnext : Moment.next ⟨.call n t (receiver :: rest), stack, w⟩ =
      ⟨.answer (.error (.fault (.dispatch (.recursionLimit t.name t.layer.maxDepth)))), stack, w⟩ := by
    simp only [Moment.next, Moment.called, if_pos hfull]
  rw [hnext]
  exact ⟨.inl rfl, passes_of_waits hstack hfinal⟩

end Likeness

/-- **Raising the limit never changes a result.** In a program whose bodies pass refusals on, a
call that does not exceed a limit comes under every higher limit to the same value or the same
fault, and leaves the same world but for the limit: the same objects, and the same entries in
every table. -/
theorem Trait.limit_raised {d d' : Nat} (hle : d ≤ d') {n : Nat} {t : Trait} {args : List Value}
    {w w₁ : World} {result : Except Stop Value} (ht : t.Relays) (hw : ∀ u ∈ w.traits, u.Relays)
    (hcall : (t.limited d).call (perform n) args (w.limited d) = (result, w₁))
    (hresult : ∀ f, f.IsLimit → result ≠ .error (.fault f)) :
    (t.limited d').call (perform n) args (w.limited d') = (result, w₁.limited d') := by
  let L := Likeness.raising d d' w.traits hw
  let run (d : Nat) (k : Nat) := Moment.after k ⟨.call n (t.limited d) args, [], w.limited d⟩
  -- The runs are alike until the lower limit refuses a call, and then that run is doomed.
  have hrun (k : Nat) : L.Moments (run d k) (run d' k) ∨
      ∃ f : Fault, f.IsLimit ∧ (run d k).Doomed f := by
    induction k with
    | zero => exact .inl ⟨.call ⟨t, ht, rfl, rfl⟩, .nil, rfl, rfl⟩
    | succ k ih =>
      simp only [run, Moment.after_succ']
      rcases ih with hlike | ⟨f, hf, hdoomed⟩
      · by_cases hfull : ∃ n' u receiver rest, (run d k).control = .call n' u (receiver :: rest) ∧
          u.layer.maxDepth ≤ (run d k).world.nesting.current
        · obtain ⟨n', u, receiver, rest, hcontrol, hfull⟩ := hfull
          exact .inr ⟨_, ⟨_, _, rfl⟩, hlike.doomed hcontrol hfull ⟨_, _, rfl⟩⟩
        · refine .inl (hlike.next ?_ fun _ _ _ _ _ _ hcalled => Likeness.finds_raised hcalled _)
          rintro n' _ _ receiver rest hcontrol ⟨plain, _, rfl, rfl⟩
          have hroom : (run d k).world.nesting.current < d :=
            Nat.lt_of_not_le fun h => hfull ⟨n', _, receiver, rest, hcontrol, h⟩
          exact .inr ⟨hroom, Nat.lt_of_lt_of_le hroom hle⟩
      · exact .inr ⟨f, hf, hdoomed.next⟩
  have hend : ∀ k, run d k = Moment.ended result w₁ → L.Moments (run d k) (run d' k) := by
    intro k hk
    rcases hrun k with hlike | ⟨f, hf, hdoomed⟩
    · exact hlike
    · rw [hk] at hdoomed
      exact absurd hdoomed.ended (hresult f hf)
  obtain ⟨heval, htraits⟩ := L.eval_eq (c := .call n (t.limited d) args) hcall hend
  refine heval.trans (Prod.ext rfl ?_)
  change w₁.withTraits (w.traits.map (·.limited d')) = w₁.withTraits (w₁.traits.map (·.limited d'))
  rw [show w₁.traits = w.traits.map (·.limited d) from htraits, Array.map_map]
  simp only [Function.comp_def, limited_limited]

/-- A trait that follows nodes to a leaf. -/
def following : Trait :=
  ⟨⟨0, "end", none, [("Leaf", .handler (Expr.asCase .argCount)),
    ("Node", .handler (Expr.asCase (.recur [.field (.arg 0) "rest"])))], none, 512⟩, []⟩

/-- A world with the trait, a leaf, and a node on it. -/
def oneNode : World where
  heap := ⟨#[some (.content (.fields ⟨0, 0, "Leaf", [], 0⟩ [])),
    some (.content (.fields ⟨1, 1, "Node", ["rest"], 0⟩ [.inst 0]))]⟩
  traits := #[following]

/-- Bodies that are expressions pass everything on. -/
theorem following_relays : following.Relays := by
  intro l hl
  cases List.mem_singleton.mp hl
  refine ⟨fun c hc => ?_, nofun⟩
  have hbody (e : Expr) (args : List Value) : (e.asCase args).Conforms (fun _ => True)
      Fault.IsLimit := e.conforms_meaning (fun _ => trivial) _
  rcases List.mem_pair.mp hc with rfl | rfl
  · exact hbody _
  · exact hbody _

/-- Two calls are enough, and five do not give another number. -/
theorem following_deeper :
    ((following.limited 5).call (perform 4) [.inst 1] (oneNode.limited 5)).1 = .ok (.int 1) := by
  have hcall : (following.limited 2).call (perform 4) [.inst 1] (oneNode.limited 2) =
      (.ok (.int 1), ((following.limited 2).call (perform 4) [.inst 1] (oneNode.limited 2)).2) :=
    Prod.ext (by decide +kernel) rfl
  have htraits : ∀ u ∈ oneNode.traits, u.Relays := by
    intro u hu
    cases List.mem_singleton.mp (Array.mem_toList_iff.mpr hu)
    exact following_relays
  exact congrArg Prod.fst (Trait.limit_raised (d := 2) (by decide) following_relays htraits hcall nofun)

end OpenVariants

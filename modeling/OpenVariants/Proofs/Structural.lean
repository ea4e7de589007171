import OpenVariants.Proofs.Construction
import OpenVariants.Proofs.Shape

/-! Identity is structural equality.

A ground term says how an instance is built from plain values. Two instances built for
two terms, whenever and whatever else happened, are one instance exactly when the terms
are equal as trees, as long as both live. A subterm may have died since and may have
been built anew: what lives owns its fields, so the shape of what lives is that of its
term. -/
namespace OpenVariants

/-! ### Leaves -/

namespace Value

/-- Equality of plain values: within a kind, and doubles by their bits, except that
there is one NaN and one zero. -/
def leafSame : Value → Value → Bool
  | null, null => true
  | bool a, bool b => a == b
  | int a, int b => a == b
  | big a, big b => a == b
  | float a, float b => a.isNaN && b.isNaN || a.isZero && b.isZero || a.bits == b.bits
  | text a, text b => a == b
  | symbol a, symbol b => a == b
  | _, _ => false

/-- Plain values are the same exactly when they are equal leaves. -/
theorem same_eq_leafSame {v : Value} (hv : v.object? = none) (w : Value) :
    v.same w = v.leafSame w := by
  cases v with
  | float a => cases w <;> simp [same, leafSame, Number.Double.same_eq]
  | list | record | function | lazy | inst => cases hv
  | _ => cases w <;> rfl

end Value

/-! ### Terms -/

/-- A tree of variants over plain values. -/
inductive Term where
  | leaf (v : Value)
  | node (tag : Tag) (args : List Term)

namespace Term

mutual

/-- Equality of trees. -/
def same : Term → Term → Bool
  | leaf v, leaf w => v.leafSame w
  | node tag args, node tag' args' => tag.same tag' && allSame args args'
  | _, _ => false

def allSame : List Term → List Term → Bool
  | [], [] => true
  | t :: rest, t' :: rest' => t.same t' && allSame rest rest'
  | _, _ => false

end

mutual

/-- The shape of what is built for a term. -/
def shape : Term → Shape
  | leaf v => .leaf (Key.ofValue v)
  | node tag args => .node (.inst tag) (shapes args)

def shapes : List Term → List Shape
  | [] => []
  | t :: rest => t.shape :: shapes rest

end

/-- The variants are declared ones, and the leaves are plain. -/
inductive Over (declared : List (RegistryId × Tag)) : Term → Prop
  | leaf (v : Value) (hv : v.object? = none) : Over declared (leaf v)
  | node (r : RegistryId) (tag : Tag) (args : List Term) (ht : (r, tag) ∈ declared)
    (hargs : ∀ t ∈ args, Over declared t) : Over declared (node tag args)

end Term

theorem Term.Over.subset {declared declared' : List (RegistryId × Tag)} {t : Term}
    (ht : t.Over declared) (hd : declared ⊆ declared') : t.Over declared' := by
  induction ht with
  | leaf v hv => exact .leaf v hv
  | node r tag args htag _ ih => exact .node r tag args (hd htag) ih

/-- In what a program came to, a value was built for a term, bottom up, through variants of
held data or clones. The registry of each variant had given out fewer tags than there are
ids. -/
inductive Built : Holder → Term → Value → Prop
  | leaf (k : Holder) (v : Value) (hk : k.Reachable) (hv : v.object? = none) :
    Built k (.leaf v) v
  | node (k : Holder) (v : Variant) (form : Form) (ts : List Term) (args : List Value) (x : Value)
    (w : World) (hk : k.Reachable) (hv : k.Has v)
    (hcount : k.client.variantCount v.registry < UInt32.size)
    (hin : ∀ a ∈ form.values, k.world.heap.Proper a) (hrun : form.run v k.world = (.ok x, w))
    (hfields : form.fields k.world.heap v = .ok args) (hlen : ts.length = args.length)
    (hargs : ∀ p ∈ ts.zip args, Built k p.1 p.2) : Built (k.withWorld w) (.node v.tag ts) x
  | later (k k' : Holder) (t : Term) (x : Value) (hb : Built k t x) (hs : Holder.Step k k') :
    Built k' t x

namespace Term

mutual

/-- Terms over one set of declarations are equal exactly when they have one shape. -/
theorem same_iff {declared : List (RegistryId × Tag)} {w : World} (hc : w.Canonical declared)
    {t t' : Term} (ht : t.Over declared) (ht' : t'.Over declared) :
    t.same t' = true ↔ t.shape = t'.shape := by
  cases t with
  | leaf v =>
    cases ht with
    | leaf _ hv =>
    cases t' with
    | leaf v' =>
      rw [same, ← Value.same_eq_leafSame hv, Value.same_iff_of_plain hv]
      simp [shape]
    | node tag args => simp [same, shape]
  | node tag args =>
    cases ht with
    | node r _ _ htag hargs =>
    cases t' with
    | leaf v' => simp [same, shape]
    | node tag' args' =>
      cases ht' with
      | node r' _ _ htag' hargs' =>
      have hsame := allSame_iff hc hargs hargs'
      have heq : tag.same tag' = true ↔ tag = tag' := by
        refine ⟨fun h => ?_, fun h => by simp [h, Tag.same]⟩
        cases hc.serials _ htag _ htag' (by simpa [Tag.same] using h)
        rfl
      simp [same, shape, hsame, heq]

theorem allSame_iff {declared : List (RegistryId × Tag)} {w : World} (hc : w.Canonical declared)
    {ts ts' : List Term} (ht : ∀ t ∈ ts, t.Over declared) (ht' : ∀ t ∈ ts', t.Over declared) :
    allSame ts ts' = true ↔ shapes ts = shapes ts' := by
  cases ts with
  | nil => cases ts' <;> simp [allSame, shapes]
  | cons t ts =>
    cases ts' with
    | nil => simp [allSame, shapes]
    | cons t' ts' =>
      rw [List.forall_mem_cons] at ht ht'
      simp [allSame, shapes, same_iff hc ht.1 ht'.1, allSame_iff hc ht.2 ht'.2]

end

end Term

namespace Built

/-- What stands when a value was built for a term. -/
structure Standing (k : Holder) (t : Term) (x : Value) : Prop where
  reachable : k.Reachable
  terms : t.Over k.client.declared
  made : ∀ id, x.object? = some id → id < k.world.heap.size
  shown : k.world.heap.holds x = true → k.world.heap.Proper x ∧ t.shape.Shown k.world.heap x
  inst : ∀ tag args, t = .node tag args → ∃ id, x = .inst id

theorem allShown_zip {h : Heap} {ts : List Term} {args : List Value}
    (hlen : ts.length = args.length) (hs : ∀ p ∈ ts.zip args, p.1.shape.Shown h p.2) :
    Shape.AllShown h (Term.shapes ts) args := by
  induction ts generalizing args with
  | nil =>
    cases args with
    | nil => trivial
    | cons => cases hlen
  | cons t ts ih =>
    cases args with
    | nil => cases hlen
    | cons a args =>
      refine ⟨hs (t, a) List.mem_cons_self, ih (Nat.succ.inj hlen) fun p hp => ?_⟩
      exact hs p (List.mem_cons_of_mem _ hp)

/-- What was built for a term has its shape while it lives. -/
theorem standing {k : Holder} {t : Term} {x : Value} (hb : Built k t x) : Standing k t x := by
  induction hb with
  | leaf k v hk hv =>
    refine ⟨hk, .leaf v hv, by simp [hv], fun _ => ⟨Heap.proper_of_plain hv, rfl, ?_⟩, by simp⟩
    refine Option.eq_none_iff_forall_ne_some.mpr fun id hid => ?_
    rw [Heap.ofValue_eq_object (Key.object?_eq_some.mp hid)] at hv
    cases hv
  | node k v form ts args x w hk hv hcount hin hrun hfields hlen hargs ih =>
    have hs := hk.sound
    have hstep : Holder.Step k (k.withWorld w) := hs.construct hv hin hrun
    have hreachable : (k.withWorld w).Reachable := hk.tail hstep
    have hcanonical : w.Canonical k.client.declared := hreachable.sound.client.world
    obtain ⟨args', values, hf, hinst, hsame⟩ := hs.construct_inst hv hcount hin hrun
    rw [hfields] at hf
    cases hf
    obtain ⟨id, rfl, ho⟩ := Heap.instance?_eq_some.mp hinst
    have hproper := fields_proper hs.client.world.heap hin hfields
    have hlater := hs.construct_extends hv hin hrun
    have hargs' : Shape.AllShown w.heap (Term.shapes ts) args := by
      apply Shape.AllShown.later (hs.before hstep) hcanonical.heap
      · refine allShown_zip hlen fun p hp => ((ih p hp).shown ?_).2
        exact (hproper p.2 (List.of_mem_zip hp).2).holds
      · exact fun a ha => ((hproper a ha).extends hlater).holds
    have hvalues := hcanonical.allShown_of_allSame (fun a ha => (hcanonical.heap id _ ho a ha).1)
      (fun a ha => (hproper a ha).extends hlater) hsame hargs'
    have hover : ∀ t ∈ ts, t.Over k.client.declared := by
      intro t ht
      obtain ⟨i, hi, rfl⟩ := List.getElem_of_mem ht
      have hzip : i < (ts.zip args).length := by simpa [← hlen] using hi
      simpa using (ih _ (List.getElem_mem hzip)).terms
    refine ⟨hreachable, .node v.registry _ _ (hs.has hv).known hover, ?_, ?_, ?_⟩
    · intro i hi
      cases hi
      exact Heap.lt_size ho
    · exact fun _ => ⟨Heap.proper_inst ho, id, _, rfl, ho, rfl, hvalues⟩
    · exact fun _ _ _ => ⟨id, rfl⟩
  | later k k' t x hb hstep ih =>
    have hs := ih.reachable.sound
    have hbefore := hs.before hstep
    have hheap := (hs.step hstep).client.world.heap
    refine ⟨ih.reachable.tail hstep, ih.terms.subset hstep.declared_grows.subset, ?_, ?_, ih.inst⟩
    · exact fun id hid => Nat.lt_of_lt_of_le (ih.made id hid) hbefore.size
    · intro hl
      have hl' := hbefore.holds_of_later ih.made hl
      obtain ⟨hp, hshown⟩ := ih.shown hl'
      exact ⟨hp.later hbefore hl, hshown.later hbefore hheap hl⟩

end Built

/-- **Identity is structural equality.** Two values that were built for two ground terms
and are alive are the same, and have one key, exactly when the terms are equal as trees;
for instances that is to be one and the same. -/
theorem Built.same_iff_same {k : Holder} {t t' : Term} {x x' : Value} (hb : Built k t x)
    (hb' : Built k t' x') (hl : k.world.heap.holds x = true) (hl' : k.world.heap.holds x' = true) :
    (x.same x' = true ↔ t.same t' = true) ∧
    (Key.ofValue x = Key.ofValue x' ↔ t.same t' = true) ∧
    ((∃ tag args, t = .node tag args) → (∃ tag args, t' = .node tag args) →
      x.identical? x' = some (t.same t') ∧ (x = x' ↔ t.same t' = true)) := by
  have hst := hb.standing
  have hst' := hb'.standing
  have hc := hst.reachable.sound.client.world
  obtain ⟨hp, hs⟩ := hst.shown hl
  obtain ⟨hp', hs'⟩ := hst'.shown hl'
  have hsame : x.same x' = true ↔ t.same t' = true :=
    (hc.same_iff_shape hp hp' hs hs').trans (Term.same_iff hc hst.terms hst'.terms).symm
  refine ⟨hsame, (Heap.same_iff_ofValue hp hp').symm.trans hsame, ?_⟩
  rintro ⟨tag, args, rfl⟩ ⟨tag', args', rfl⟩
  obtain ⟨i, rfl⟩ := hst.inst tag args rfl
  obtain ⟨j, rfl⟩ := hst'.inst tag' args' rfl
  have hid : i = j ↔ (Term.node tag args).same (.node tag' args') = true := by
    rw [← hsame]
    simp [Value.same]
  refine ⟨?_, ?_⟩
  · simp only [Value.identical?, Option.some.injEq]
    rw [Bool.eq_iff_iff, beq_iff_eq, hid]
  · rw [Value.inst.injEq, hid]

/-- Zero and the number after it, which is built through a clone, are two instances, as their
terms are two. -/
theorem zero_and_next :
    let zero := Term.node Client.zero.tag []
    let next := Term.node Client.next.tag [zero]
    Built Holder.nextHeld zero (.inst 0) ∧ Built Holder.nextHeld next (.inst 1) ∧
      (Value.inst 0).identical? (.inst 1) = some (zero.same next) := by
  have hheld := Holder.nextHeld_reachable
  have hzero : Built Holder.nextHeld (.node Client.zero.tag []) (.inst 0) :=
    .node Holder.nextHeld Client.zero .unit [] [] (.inst 0) _ hheld
      (.inr ⟨Client.number, List.mem_cons_self, List.mem_cons_self⟩) (by decide)
      (by simp [Form.values]) rfl rfl rfl (by simp)
  have hnext : Built Holder.nextHeld (.node Client.next.tag [.node Client.zero.tag []]) (.inst 1) := by
    refine .node Holder.nextHeld Client.next (.positional [.inst 0]) _ [.inst 0] (.inst 1) _ hheld
      (.inl List.mem_cons_self) (by decide) Holder.nextHeld_zero rfl rfl rfl ?_
    intro p hp
    rw [List.mem_singleton.mp hp]
    exact hzero
  refine ⟨hzero, hnext, ?_⟩
  exact ((hzero.same_iff_same hnext rfl rfl).2.2 ⟨_, _, rfl⟩ ⟨_, _, rfl⟩).1

end OpenVariants

import OpenVariants.Proofs.Key
import OpenVariants.Proofs.Stores

/-! What is in hand.

What names stand for, and what that refers to, is living and is known by its name
(`World.Fit`). A part of a command only adds to this: what is in hand stays so until the
command ends (`World.Onward`), when what no name stands for any more is let go. -/
namespace OpenVariants

/-! ### Text -/

/-- The bodies of a rule, a case and a bottom are expressions. -/
def Rule.Textual (r : Rule) : Prop := ∃ e : Expr, r.handler = e.asCase

def Case.Textual : Case → Prop
  | .handler body => ∃ e : Expr, body = e.asCase
  | .rules list => ∀ r ∈ list.rules, r.Textual

def Bottom.Textual : Bottom → Prop
  | .value _ => True
  | .compute body => ∃ e : Expr, body = e.asFunction

structure Layer.Textual (l : Layer) : Prop where
  cases : ∀ c ∈ l.cases, c.2.Textual
  memo : ∀ m, l.memo? = some m → m.bottom.Textual

namespace World

/-! ### What a world has -/

/-- The values are in hand. -/
def Has (w : World) (values : List Value) : Prop := ∀ v ∈ values, w.heap.Proper v

/-- What a store holds strongly is in hand. -/
def Owns (w : World) (id : StoreId) : Prop :=
  ∀ s, w.stores[id]? = some s → ∀ path v, s.root.stored? path = some (.strong v) → w.heap.Proper v

/-- A trait that may be called. -/
structure HasTrait (w : World) (t : Trait) : Prop where
  values : w.Has t.heldValues
  stores : ∀ id ∈ t.heldStores, w.Owns id
  textual : ∀ l ∈ t.chain, l.Textual

def HasTraitId (w : World) (id : TraitId) : Prop := ∃ t, w.traits[id]? = some t ∧ w.HasTrait t

structure HasFacade (w : World) (f : Facade) : Prop where
  values : w.Has f.data.singletons
  traits : ∀ p ∈ f.traits, w.HasTraitId p.2

structure HasRules (w : World) (r : Rules) : Prop where
  values : w.Has r.heldValues
  textual : ∀ rule ∈ r.rules, rule.Textual

/-- What a name stands for is in hand; a handle that keeps nothing alive came to hand. -/
def HasBinding (w : World) : Binding → Prop
  | .registry _ | .knot _ => True
  | .weak v => w.heap.Known v
  | .data d => w.Has d.singletons
  | .value v => w.heap.Proper v
  | .pattern p => w.Has p.heldValues
  | .rules id => ∃ r, w.rules[id]? = some r ∧ w.HasRules r
  | .trait id => w.HasTraitId id
  | .facade f => w.HasFacade f
  | .view v => w.heap.Proper (.inst v.inst) ∧ w.HasFacade v.facade
  | .method m => w.heap.Proper m.receiver ∧ w.HasTraitId m.trait
  | .store id => w.Owns id

/-- Objects, knots, stores and traits are in order. -/
structure Tables (w : World) : Prop where
  heap : w.heap.Sound
  knots : ∀ (k : KnotId) v, w.knots[k]? = some (some v) → w.heap.Known v
  distinct : ∀ (i : StoreId) s, w.stores[i]? = some s → s.root.Distinct
  stored : ∀ (i : StoreId) s, w.stores[i]? = some s → ∀ path held,
    s.root.stored? path = some held → w.heap.Known held.value
  traits : ∀ (i : TraitId) t, w.traits[i]? = some t → t.layer.id = i

/-- A world after a part of a command. -/
structure Onward (w w' : World) : Prop where
  extends_ : w.heap.Extends w'.heap
  before : w.heap.Before w'.heap
  bindings : w'.bindings = w.bindings
  traits : ∀ (i : TraitId) t, w.traits[i]? = some t → w'.traits[i]? = some t
  rules : ∀ (i : RulesId) r, w.rules[i]? = some r → w'.rules[i]? = some r
  owns : ∀ id, w.Owns id → w'.Owns id
  knots : ∀ (k : KnotId) v, w.knots[k]? = some (some v) → w'.knots[k]? = some (some v)
  tables : w.Tables → w'.Tables

structure Fit (w : World) : Prop where
  tables : w.Tables
  bindings : ∀ p ∈ w.bindings, w.HasBinding p.2

section
variable {w w' w'' : World}

theorem Onward.refl (w : World) : w.Onward w :=
  ⟨.refl _, .refl _, rfl, fun _ _ h => h, fun _ _ h => h, fun _ h => h, fun _ _ h => h, fun h => h⟩

theorem Onward.trans (h : w.Onward w') (h' : w'.Onward w'') : w.Onward w'' where
  extends_ := h.extends_.trans h'.extends_
  before := h.before.trans h'.before
  bindings := h'.bindings.trans h.bindings
  traits i t ht := h'.traits i t (h.traits i t ht)
  rules i r hr := h'.rules i r (h.rules i r hr)
  owns id hid := h'.owns id (h.owns id hid)
  knots k v hk := h'.knots k v (h.knots k v hk)
  tables ht := h'.tables (h.tables ht)

/-! ### What is in hand stays so -/

theorem Has.onward {values : List Value} (h : w.Has values) (ho : w.Onward w') : w'.Has values :=
  fun v hv => (h v hv).extends ho.extends_

theorem HasTrait.onward {t : Trait} (h : w.HasTrait t) (ho : w.Onward w') : w'.HasTrait t :=
  ⟨h.values.onward ho, fun id hid => ho.owns id (h.stores id hid), h.textual⟩

theorem HasTraitId.onward {id : TraitId} (h : w.HasTraitId id) (ho : w.Onward w') :
    w'.HasTraitId id := by
  obtain ⟨t, ht, hin⟩ := h
  exact ⟨t, ho.traits id t ht, hin.onward ho⟩

theorem HasFacade.onward {f : Facade} (h : w.HasFacade f) (ho : w.Onward w') : w'.HasFacade f :=
  ⟨h.values.onward ho, fun p hp => (h.traits p hp).onward ho⟩

theorem HasRules.onward {r : Rules} (h : w.HasRules r) (ho : w.Onward w') : w'.HasRules r :=
  ⟨h.values.onward ho, h.textual⟩

theorem HasBinding.onward {b : Binding} (h : w.HasBinding b) (ho : w.Onward w') :
    w'.HasBinding b := by
  cases b with
  | registry | knot => trivial
  | weak v => exact Heap.Known.later ho.before h
  | data d => exact Has.onward h ho
  | value v => exact h.extends ho.extends_
  | pattern p => exact Has.onward h ho
  | rules id =>
    obtain ⟨r, hr, hin⟩ := h
    exact ⟨r, ho.rules id r hr, hin.onward ho⟩
  | trait id => exact HasTraitId.onward h ho
  | facade f => exact HasFacade.onward h ho
  | view v => exact ⟨h.1.extends ho.extends_, h.2.onward ho⟩
  | method m => exact ⟨h.1.extends ho.extends_, h.2.onward ho⟩
  | store id => exact ho.owns id h

theorem Fit.onward (h : w.Fit) (ho : w.Onward w') : w'.Fit where
  tables := ho.tables h.tables
  bindings p hp := (h.bindings p (ho.bindings ▸ hp)).onward ho

/-! ### Changes -/

/-- What is not in the heap, the names or the tables does not matter. -/
theorem onward_of_eq (hheap : w'.heap = w.heap) (hbindings : w'.bindings = w.bindings)
    (htraits : w'.traits = w.traits) (hrules : w'.rules = w.rules)
    (hstores : w'.stores = w.stores) (hknots : w'.knots = w.knots) : w.Onward w' where
  extends_ := by rw [hheap]; exact .refl _
  before := by rw [hheap]; exact .refl _
  bindings := hbindings
  traits := by rw [htraits]; exact fun _ _ h => h
  rules := by rw [hrules]; exact fun _ _ h => h
  owns id h := by
    unfold Owns at h ⊢
    rwa [hheap, hstores]
  knots := by rw [hknots]; exact fun _ _ h => h
  tables h := by
    obtain ⟨hs, hk, hd, hst, ht⟩ := h
    exact ⟨hheap ▸ hs, hheap ▸ hknots ▸ hk, hstores ▸ hd, hheap ▸ hstores ▸ hst, htraits ▸ ht⟩

/-- More objects. -/
theorem onward_heap {h : Heap} (he : w.heap.Extends h) (hb : w.heap.Before h)
    (hs : w.heap.Sound → h.Sound) : w.Onward {w with heap := h} where
  extends_ := he
  before := hb
  bindings := rfl
  traits _ _ ht := ht
  rules _ _ hr := hr
  owns _ hid s hstore path v hv := (hid s hstore path v hv).extends he
  knots _ _ hk := hk
  tables ht :=
    { heap := hs ht.heap
      knots := fun k v hk => (ht.knots k v hk).later hb
      distinct := ht.distinct
      stored := fun i s hs path held hheld => (ht.stored i s hs path held hheld).later hb
      traits := ht.traits }

theorem onward_push {o : Object} (hin : w.Has o.children) : w.Onward (w.push o) :=
  onward_heap (Heap.extends_push _ _) (Heap.before_push _ _) fun hs => hs.push o hin

/-- A store is changed; what it holds afterwards it held before, or is in hand. -/
theorem onward_updateStore (ht : w.Tables) {id : StoreId} {change : Heap → Store → Store}
    (hchange : ∀ s, w.stores[id]? = some s → s.root.Distinct →
      (change w.heap s).root.Distinct ∧ ∀ path held, (change w.heap s).root.stored? path = some held →
        s.root.stored? path = some held ∨ w.heap.Proper held.value) :
    w.Onward (w.updateStore id change) := by
  have hstore : ∀ (i : StoreId) s', (w.updateStore id change).stores[i]? = some s' →
      ∃ s, w.stores[i]? = some s ∧ (s.root.Distinct → s'.root.Distinct) ∧
        ∀ path held, s'.root.stored? path = some held →
          s.root.stored? path = some held ∨ w.heap.Proper held.value := by
    intro i s' hs'
    rw [stores_updateStore] at hs'
    split at hs'
    · next hi =>
      subst hi
      obtain ⟨s, hs, rfl⟩ := Option.map_eq_some_iff.mp hs'
      obtain ⟨hd, hheld⟩ := hchange s hs (ht.distinct i s hs)
      exact ⟨s, hs, fun _ => hd, hheld⟩
    · exact ⟨s', hs', fun h => h, fun _ _ h => .inl h⟩
  refine ⟨.refl _, .refl _, rfl, fun _ _ h => h, fun _ _ h => h, fun i hi s' hs' path v hv => ?_,
    fun _ _ h => h, fun ht => ⟨ht.heap, ht.knots, fun i s' hs' => ?_, fun i s' hs' path held hheld => ?_, ht.traits⟩⟩
  · obtain ⟨s, hs, _, hold⟩ := hstore i s' hs'
    exact (hold path _ hv).elim (hi s hs path v) fun h => h
  · obtain ⟨s, hs, hd, _⟩ := hstore i s' hs'
    exact hd (ht.distinct i s hs)
  · obtain ⟨s, hs, _, hold⟩ := hstore i s' hs'
    exact (hold path held hheld).elim (ht.stored i s hs path held) Heap.Proper.known

theorem onward_storeSet (ht : w.Tables) (id : StoreId) (path : List Key) {v : Value}
    (hv : w.heap.Proper v) : w.Onward (w.storeSet id path v) := by
  refine onward_updateStore ht fun s _ hd => ⟨hd.insert _ _, fun q held hq => ?_⟩
  cases path with
  | nil => exact .inl hq
  | cons k path =>
    change (s.root.insert _ (k :: path)).stored? q = _ at hq
    rw [Store.Level.stored?_insert _ _ _ _ (by simp)] at hq
    split at hq
    · right
      rw [← Option.some.inj hq]
      unfold Store.stored
      split
      · exact hv
      · split <;> exact hv
    · exact .inl hq

theorem onward_storeErase (ht : w.Tables) (id : StoreId) (path : List Key) :
    w.Onward (w.storeErase id path) := by
  refine onward_updateStore ht fun s _ hd => ⟨hd.erase _, fun q held hq => ?_⟩
  change (s.root.erase path).stored? q = _ at hq
  rw [Store.Level.stored?_erase] at hq
  split at hq
  · cases hq
  · exact .inl hq

theorem onward_storePurged (ht : w.Tables) (id : StoreId) :
    w.Onward (w.updateStore id Store.purged) := by
  refine onward_updateStore ht fun s _ hd => ⟨hd.purged _, fun q held hq => ?_⟩
  change (s.root.purged w.heap.alive).stored? q = _ at hq
  rw [Store.Level.stored?_purged _ hd] at hq
  split at hq
  · exact .inl (Option.eq_some_of_filter_eq_some hq)
  · cases hq

theorem onward_storeCleared (ht : w.Tables) (id : StoreId) :
    w.Onward (w.updateStore id fun _ => Store.cleared) := by
  refine onward_updateStore ht fun s _ _ => ⟨trivial, fun q held hq => ?_⟩
  simp [Store.cleared] at hq

theorem onward_addStore (retention : Retention) : w.Onward (w.addStore retention).2 := by
  have hstore : ∀ (i : StoreId) s, (w.addStore retention).2.stores[i]? = some s →
      w.stores[i]? = some s ∨ s = ⟨retention, .nil⟩ := by
    intro i s hs
    simp only [addStore, Array.getElem?_push] at hs
    split at hs
    · exact .inr (Option.some.inj hs).symm
    · exact .inl hs
  refine ⟨.refl _, .refl _, rfl, fun _ _ h => h, fun _ _ h => h, fun id hid s hs path v hv => ?_,
    fun _ _ h => h, fun ht => ⟨ht.heap, ht.knots, fun i s hs => ?_, fun i s hs path held hheld => ?_, ht.traits⟩⟩
  · rcases hstore id s hs with hs | rfl
    · exact hid s hs path v hv
    · simp at hv
  · rcases hstore i s hs with hs | rfl
    · exact ht.distinct i s hs
    · trivial
  · rcases hstore i s hs with hs | rfl
    · exact ht.stored i s hs path held hheld
    · simp at hheld

theorem owns_addStore (retention : Retention) :
    (w.addStore retention).2.Owns (w.addStore retention).1 := by
  intro s hs path v hv
  simp only [addStore, Array.getElem?_push, if_true, Option.some.injEq] at hs
  subst hs
  simp at hv

theorem getElem?_push_of_some {table : Array α} {i : Nat} {a : α} (h : table[i]? = some a) (b : α) :
    (table.push b)[i]? = some a := by
  rw [Array.getElem?_push, if_neg (Nat.ne_of_lt (Array.getElem?_eq_some_iff.mp h).1)]
  exact h

theorem onward_addTrait {t : Trait} (hid : t.layer.id = w.traits.size) :
    w.Onward (w.addTrait t).2 := by
  refine ⟨.refl _, .refl _, rfl, fun _ _ h => getElem?_push_of_some h t, fun _ _ h => h,
    fun _ h => h, fun _ _ h => h,
    fun ht => ⟨ht.heap, ht.knots, ht.distinct, ht.stored, fun i u hu => ?_⟩⟩
  simp only [addTrait, Array.getElem?_push] at hu
  split at hu
  · next hi =>
    cases hu
    rw [hid, hi]
  · exact ht.traits i u hu

theorem onward_addRules (r : Rules) : w.Onward (w.addRules r).2 :=
  ⟨.refl _, .refl _, rfl, fun _ _ h => h, fun _ _ h => getElem?_push_of_some h r, fun _ h => h,
    fun _ _ h => h, fun ht => ⟨ht.heap, ht.knots, ht.distinct, ht.stored, ht.traits⟩⟩

/-- More knots are tied, to what is in hand, and those that are stay so. -/
theorem onward_knots {knots : Array (Option Value)}
    (hold : ∀ (k : KnotId) v, w.knots[k]? = some (some v) → knots[k]? = some (some v))
    (hknots : ∀ (k : KnotId) v, knots[k]? = some (some v) →
      w.knots[k]? = some (some v) ∨ w.heap.Proper v) : w.Onward {w with knots} :=
  ⟨.refl _, .refl _, rfl, fun _ _ h => h, fun _ _ h => h, fun _ h => h, hold, fun ht =>
    ⟨ht.heap, fun k v hk => (hknots k v hk).elim (ht.knots k v) Heap.Proper.known, ht.distinct,
      ht.stored, ht.traits⟩⟩

theorem onward_addKnot : w.Onward w.addKnot.2 := by
  refine onward_knots (fun k v hk => getElem?_push_of_some hk none) fun k v hk => .inl ?_
  rw [Array.getElem?_push] at hk
  split at hk
  · cases hk
  · exact hk

/-- Of what was made after a time only what stores own is reclaimed, so what was in hand
then stays so. -/
theorem Onward.reclaimed (ho : w.Onward w') (ht : w.Tables) :
    w.Onward (w'.reclaimed w.heap.size) := by
  have hfields : (w'.reclaimed w.heap.size).bindings = w'.bindings ∧
      (w'.reclaimed w.heap.size).traits = w'.traits ∧ (w'.reclaimed w.heap.size).rules = w'.rules ∧
      (w'.reclaimed w.heap.size).knots = w'.knots := by
    unfold World.reclaimed
    split <;> exact ⟨rfl, rfl, rfl, rfl⟩
  obtain ⟨hbindings, htraits, hrules, hknots⟩ := hfields
  have hstores := stores_reclaimed w' w.heap.size
  have hbefore := before_reclaimed w' w.heap.size
  have hht := ho.tables ht
  refine ⟨fun id o h => ?_, ho.before.trans hbefore, hbindings.trans ho.bindings, ?_, ?_, ?_, ?_,
    fun _ => ?_⟩
  · rw [object?_reclaimed, if_pos (.inl (Heap.lt_size h))]
    exact ho.extends_ id o h
  · rw [htraits]
    exact ho.traits
  · rw [hrules]
    exact ho.rules
  · intro id hid s hs path v hv
    rw [hstores] at hs
    have hproper := ho.owns id hid s hs path v hv
    have hheld : w'.held? id path = some (.strong v) := by rw [held?, hs]; exact hv
    exact hproper.later hbefore (holds_reclaimed _ hproper.holds (mem_owners hheld))
  · rw [hknots]
    exact ho.knots
  · refine ⟨?_, fun k v hk => ?_, fun i s hs => ?_, fun i s hs path held hheld => ?_, ?_⟩
    · unfold World.reclaimed
      split
      · exact hht.heap
      · have hr := Heap.retains_reclaim hht.heap w.heap.size w'.owners [] (by simp)
        exact hht.heap.retains hr
    · rw [hknots] at hk
      exact (hht.knots k v hk).later hbefore
    · exact hht.distinct i s (hstores ▸ hs)
    · exact (hht.stored i s (hstores ▸ hs) path held hheld).later hbefore
    · rw [htraits]
      exact hht.traits

end

end World

end OpenVariants

import OpenVariants.Proofs.Depth
import OpenVariants.Proofs.Stores
import Mathlib.Logic.Relation

/-! How long a memo table keeps a result.

A miss that is in progress puts its bottom into the table when it gets it, and its result
in the end, whatever the table has by then (`Pending.fills`). Nothing else takes the place
of an entry whose value lives: not a call, since a call on the same arguments finds the
entry, and not what happens between calls (`Moment.Keeps.step`). So what a call returned
stays the answer to every later call on equal arguments as long as the arguments and the
value live, provided that no miss of these arguments was in progress around the call
(`Trait.result_lasts`). -/
namespace OpenVariants

/-! ### Tables -/

/-- There is such a table, with each key once in a level. -/
def Tabled (table : StoreId) (w : World) : Prop :=
  ∃ s, w.stores[table]? = some s ∧ s.root.Distinct

/-- What a table has under a path, dead or alive, is a value. -/
def World.Carries (table : StoreId) (path : List Key) (v : Value) (w : World) : Prop :=
  ∃ held, w.held? table path = some held ∧ held.value = v

namespace Tabled
variable {table : StoreId} {w : World}

theorem of_stores (hw : Tabled table w) {w' : World} (h : w'.stores[table]? = w.stores[table]?) :
    Tabled table w' := by
  unfold Tabled
  rw [h]
  exact hw

theorem updateStore (hw : Tabled table w) (id : StoreId) (change : Heap → Store → Store)
    (hc : ∀ h s, s.root.Distinct → (change h s).root.Distinct) :
    Tabled table (w.updateStore id change) := by
  obtain ⟨s, hs, hd⟩ := hw
  unfold Tabled
  rw [World.stores_updateStore, hs]
  split
  · exact ⟨_, rfl, hc _ _ hd⟩
  · exact ⟨s, rfl, hd⟩

theorem storeSet (hw : Tabled table w) (id : StoreId) (path : List Key) (v : Value) :
    Tabled table (w.storeSet id path v) :=
  hw.updateStore id _ fun _ _ hd => hd.insert _ _

theorem storeErase (hw : Tabled table w) (id : StoreId) (path : List Key) :
    Tabled table (w.storeErase id path) :=
  hw.updateStore id _ fun _ _ hd => hd.erase _

theorem purged (hw : Tabled table w) : Tabled table (w.updateStore table Store.purged) :=
  hw.updateStore table _ fun _ _ hd => hd.purged _

theorem reclaimed (hw : Tabled table w) (since : ObjectId) : Tabled table (w.reclaimed since) :=
  hw.of_stores (by rw [World.stores_reclaimed])

/-- A step leaves a table. -/
theorem next {m : Moment} (hm : Tabled table m.world) : Tabled table m.next.world := by
  have hchange := m.change
  generalize m.next = m' at hchange
  cases hchange with
  | quiet hq => exact hm.of_stores (by rw [hq.stores])
  | install => exact (hm.storeSet _ _ _).reclaimed _
  | result => exact hm.storeSet _ _ _
  | failure => exact hm.storeErase _ _
  | wait | enter | miss | resume | leave | abandon => exact hm

theorem leads {m m' : Moment} (hm : Tabled table m.world) (h : m.Leads m') :
    Tabled table m'.world := by
  obtain ⟨k, rfl⟩ := h
  exact Moment.after_of_next (P := fun m => Tabled table m.world) (fun _ => next) hm k

/-- Evaluation leaves a table. -/
theorem eval {c : Control} {r : Except Stop Value} {w' : World} (hw : Tabled table w)
    (h : c.eval w = (r, w')) : Tabled table w' := by
  have hanswer := Moment.answers c [] w
  rw [h] at hanswer
  exact leads hw hanswer

end Tabled

/-- What is held is alive if its value lives: a strong hold is anyhow. -/
theorem Store.Stored.alive_of_holds {h : Heap} (held : Store.Stored)
    (hv : h.holds held.value = true) : held.alive h.alive = true := by
  cases held with
  | strong v => rfl
  | weak v => exact hv

namespace World
variable {table : StoreId} {path : List Key} {v : Value} {w : World}

/-- A table answers with a value that it has, as long as that lives. -/
theorem stored?_of_held? {held : Store.Stored} (h : w.held? table path = some held)
    (hv : w.heap.holds held.value = true) : w.stored? table path = some held.value := by
  rw [stored?_eq_held?, h]
  simp [Store.Stored.load, held.alive_of_holds hv]

theorem Carries.of_held? (h : w.Carries table path v) {w' : World}
    (hsame : w'.held? table path = w.held? table path) : w'.Carries table path v := by
  obtain ⟨held, hheld, hvalue⟩ := h
  exact ⟨held, hsame.trans hheld, hvalue⟩

theorem carries_of_stored? (h : w.stored? table path = some v) : w.Carries table path v := by
  rw [stored?_eq_held?] at h
  obtain ⟨held, hheld, hload⟩ := Option.bind_eq_some_iff.mp h
  refine ⟨held, hheld, ?_⟩
  unfold Store.Stored.load at hload
  split at hload
  · exact Option.some.inj hload
  · cases hload

theorem carries_storeSet (hw : Tabled table w) (hpath : path ≠ []) (v : Value) :
    (w.storeSet table path v).Carries table path v := by
  obtain ⟨s, hs, _⟩ := hw
  refine ⟨_, by rw [held?_storeSet hs hpath, if_pos rfl], ?_⟩
  unfold Store.stored
  split
  · rfl
  · split <;> rfl

end World

/-! ### Misses in progress -/

/-- What waits is a miss of a table under a path. -/
def Pending.Fills (table : StoreId) (path : List Key) : Pending → Prop
  | .bottom _ memo _ _ _ path' _ | .case memo path' => memo.store = table ∧ path' = path
  | _ => False

/-- A miss puts what it gets into the table, whatever is there. -/
theorem Pending.fills {table : StoreId} {path : List Key} {p : Pending} (hp : p.Fills table path)
    (hpath : path ≠ []) {w : World} (hw : Tabled table w) (v : Value) (stack : List Pending) :
    (Moment.next ⟨.answer (.ok v), p :: stack, w⟩).world.Carries table path v := by
  cases p with
  | bottom n memo t receiver args path' since =>
    obtain ⟨rfl, rfl⟩ := hp
    exact (w.carries_storeSet hw hpath v).of_held? (World.held?_reclaimed ..)
  | case memo path' =>
    obtain ⟨rfl, rfl⟩ := hp
    exact w.carries_storeSet hw hpath v
  | body | call => exact hp.elim

/-! ### Runs with what happens between them -/

namespace Moment

/-- A step of evaluation, or what happens between two evaluations: objects are made and die,
and a table is purged or left alone. -/
inductive Step (table : StoreId) : Moment → Moment → Prop
  | next (m : Moment) : Step table m m.next
  | client {result : Except Stop Value} {c : Control} {w w' : World}
    (hb : w.heap.Before w'.heap) (hs : w'.stores[table]? = w.stores[table]?) :
    Step table (ended result w) ⟨c, [], w'⟩
  | purge {result : Except Stop Value} {w : World} :
    Step table (ended result w) (ended result (w.updateStore table Store.purged))

/-- Any number of steps. -/
abbrev Steps (table : StoreId) : Moment → Moment → Prop := Relation.ReflTransGen (Step table)

theorem before_next (m : Moment) : m.world.heap.Before m.next.world.heap := by
  have hchange := m.change
  generalize m.next = m' at hchange
  cases hchange with
  | quiet hq => exact hq.before
  | install => exact World.before_reclaimed (World.storeSet _ _ _ _) _
  | wait | enter | miss | resume | leave | abandon | result | failure => exact .refl _

theorem Step.before {table : StoreId} {m m' : Moment} (h : Step table m m') :
    m.world.heap.Before m'.world.heap := by
  cases h with
  | next => exact m.before_next
  | client hb _ => exact hb
  | purge => exact .refl _

theorem before_of_steps {table : StoreId} {m m' : Moment} (h : Steps table m m') :
    m.world.heap.Before m'.world.heap := by
  induction h with
  | refl => exact .refl _
  | tail _ hstep ih => exact ih.trans hstep.before

/-- A value and the keys of a path live. -/
structure Lives (path : List Key) (v : Value) (h : Heap) : Prop where
  value : h.holds v = true
  keys : path.all (·.alive h.alive) = true

/-- What lives later and was there lived before. -/
theorem Lives.of_later {path : List Key} {v : Value} {h₀ h h' : Heap} (h₀lives : Lives path v h₀)
    (hb₀ : h₀.Before h) (hb : h.Before h') (hlater : Lives path v h') : Lives path v h := by
  have hold {id : ObjectId} (hid : h₀.alive id = true) : id < h.size := by
    obtain ⟨o, ho⟩ := Heap.alive_iff.mp hid
    exact Nat.lt_of_lt_of_le (Heap.lt_size ho) hb₀.size
  refine ⟨hb.holds_of_later (fun id hid => hold ?_) hlater.value, ?_⟩
  · exact Heap.holds_iff.mp h₀lives.value id hid
  · rw [List.all_eq_true]
    intro k hk
    have hk₀ := List.all_eq_true.mp h₀lives.keys k hk
    have hk' := List.all_eq_true.mp hlater.keys k hk
    cases k with
    | object id =>
      obtain ⟨o, ho⟩ := Heap.alive_iff.mp hk'
      exact Heap.alive_iff.mpr ⟨o, hb.object id o (hold hk₀) ho⟩
    | _ => rfl

/-- A table holds a value under a path, and no miss of the path is in progress. -/
structure Keeps (table : StoreId) (path : List Key) (held : Store.Stored) (m : Moment) : Prop where
  tabled : Tabled table m.world
  entry : m.world.held? table path = some held
  free : ∀ p ∈ m.stack, ¬p.Fills table path

namespace Keeps
variable {table : StoreId} {path : List Key} {held : Store.Stored} {m m' : Moment}

/-- The table keeps a living value: a miss of the path cannot begin. -/
theorem next (hm : Keeps table path held m) (hv : m.world.heap.holds held.value = true) :
    Keeps table path held m.next := by
  have htabled := hm.tabled.next
  have hchange := m.change
  generalize m.next = m' at hchange htabled
  obtain ⟨_, hentry, hfree⟩ := hm
  have hrest {p : Pending} {stack : List Pending} (h : ∀ q ∈ p :: stack, ¬q.Fills table path) :
      ¬p.Fills table path ∧ ∀ q ∈ stack, ¬q.Fills table path := List.forall_mem_cons.mp h
  cases hchange with
  | quiet hq =>
    exact ⟨htabled, (World.held?_congr (by rw [hq.stores]) path).trans hentry, hfree⟩
  | wait | enter => exact ⟨htabled, hentry, List.forall_mem_cons.mpr ⟨id, hfree⟩⟩
  | miss _ hmiss =>
    refine ⟨htabled, hentry, List.forall_mem_cons.mpr ⟨?_, hfree⟩⟩
    -- A miss of this path would not have missed.
    rintro ⟨rfl, rfl⟩
    have hstored := World.stored?_of_held? hentry hv
    rw [hmiss] at hstored
    cases hstored
  | resume | leave | abandon => exact ⟨htabled, hentry, (hrest hfree).2⟩
  -- The misses in progress are of other paths, and write elsewhere.
  | install =>
    obtain ⟨hother, hfree⟩ := hrest hfree
    refine ⟨htabled, ?_, List.forall_mem_cons.mpr ⟨hother, hfree⟩⟩
    exact (World.held?_reclaimed ..).trans ((World.held?_storeSet_ne hother _ _).trans hentry)
  | result =>
    obtain ⟨hother, hfree⟩ := hrest hfree
    exact ⟨htabled, (World.held?_storeSet_ne hother _ _).trans hentry, hfree⟩
  | failure =>
    obtain ⟨hother, hfree⟩ := hrest hfree
    exact ⟨htabled, (World.held?_storeErase_ne hother _).trans hentry, hfree⟩

/-- What lives is not purged. -/
theorem purge (hm : Keeps table path held m) (hlives : Lives path held.value m.world.heap) :
    Keeps table path held {m with world := m.world.updateStore table Store.purged} := by
  obtain ⟨s, hs, hd⟩ := hm.tabled
  refine ⟨hm.tabled.purged, ?_, hm.free⟩
  rw [World.held?_purged hs hd, if_pos hlives.keys, hm.entry]
  simp [held.alive_of_holds hlives.value]

/-- What leaves the table alone leaves what it holds. -/
theorem elsewhere (hm : Keeps table path held m) {w : World}
    (hs : w.stores[table]? = m.world.stores[table]?) :
    Keeps table path held {m with world := w} :=
  ⟨hm.tabled.of_stores hs, (World.held?_congr hs path).trans hm.entry, hm.free⟩

theorem step (hm : Keeps table path held m) (hlives : Lives path held.value m.world.heap)
    (hstep : Step table m m') : Keeps table path held m' := by
  cases hstep with
  | next => exact hm.next hlives.value
  | client hb hs => exact ⟨(hm.elsewhere hs).tabled, (hm.elsewhere hs).entry, List.forall_mem_nil _⟩
  | purge => exact hm.purge hlives

/-- As long as the value and the keys live, the table keeps the value. -/
theorem steps (hm : Keeps table path held m) (hlives : Lives path held.value m.world.heap)
    (hsteps : Steps table m m') (hlater : Lives path held.value m'.world.heap) :
    Keeps table path held m' := by
  induction hsteps with
  | refl => exact hm
  | tail hsteps hstep ih =>
    have hbetween := hlives.of_later (before_of_steps hsteps) hstep.before hlater
    exact (ih hbetween).step hbetween hstep

end Keeps

/-- A call that finds an entry is over when it has looked. -/
theorem after_hit {n : Nat} {memo : Memo} {t : Trait} {receiver v : Value} {rest : List Value}
    {path : List Key} {stack : List Pending} {w : World} (hmemo : t.layer.memo? = some memo)
    (hpath : Key.path (receiver :: rest) = .ok path) (hhit : w.stored? memo.store path = some v)
    (hroom : w.nesting.current < t.layer.maxDepth) :
    after 3 ⟨.call n t (receiver :: rest), stack, w⟩ = ⟨.answer (.ok v), stack, w⟩ := by
  have hhit' : World.stored? memo.store path {w with nesting := w.nesting.inside} = some v := hhit
  simp only [after_succ, after_zero, next, called, if_neg (Nat.not_le_of_lt hroom), body, hmemo,
    lookedUp, hpath, hhit', resumed, Nesting.outside_inside]

end Moment

/-! ### Results last -/

/-- What a call through a table returns the table has. -/
theorem Memo.carries_of_call {n : Nat} {memo : Memo} {t : Trait} {receiver v : Value}
    {args : List Value} {path : List Key} {w w' : World} (hpath : Key.path args = .ok path)
    (htable : Tabled memo.store w)
    (hcall : memo.call (perform n) t receiver args w = (.ok v, w')) :
    w'.Carries memo.store path v := by
  rw [Memo.call_eq, hpath] at hcall
  dsimp only at hcall
  cases hstored : w.stored? memo.store path with
  | some hit =>
    rw [hstored] at hcall
    cases hcall
    exact World.carries_of_stored? hstored
  | none =>
    rw [hstored] at hcall
    dsimp only at hcall
    rcases hb : memo.bottom.run (perform n) args w with ⟨stop | b, w₁⟩
    · rw [Memo.fill_of_bottom hb] at hcall
      cases hcall
    · rcases hd : t.dispatch (perform n) receiver args
        ((w₁.storeSet memo.store path b).reclaimed w.nextObject) with ⟨stop | v', w₂⟩
      · rw [Memo.fill_error hb hd] at hcall
        cases hcall
      · rw [Memo.fill_ok hb hd] at hcall
        cases hcall
        have htable₁ := htable.eval ((congrFun (Moment.eval_bottomed ..) w).trans hb)
        have htable₂ := ((htable₁.storeSet memo.store path b).reclaimed w.nextObject).eval
          (c := .dispatch n t receiver args) hd
        exact World.carries_storeSet htable₂ (Key.path_ok hpath).2 v

theorem Trait.carries_of_call {n : Nat} {memo : Memo} {t : Trait} {receiver v : Value}
    {rest : List Value} {path : List Key} {w w' : World} (hmemo : t.layer.memo? = some memo)
    (hpath : Key.path (receiver :: rest) = .ok path) (htable : Tabled memo.store w)
    (hcall : t.call (perform n) (receiver :: rest) w = (.ok v, w')) :
    Tabled memo.store w' ∧ w'.Carries memo.store path v := by
  refine ⟨htable.eval (c := .call n t (receiver :: rest)) hcall, ?_⟩
  simp only [Trait.call, hmemo, Moment.guarded_apply] at hcall
  split at hcall
  · cases hcall
  · rcases hc : memo.call (perform n) t receiver (receiver :: rest)
      {w with nesting := w.nesting.inside} with ⟨stop | v', w₁⟩
    · rw [hc] at hcall
      cases hcall
    · rw [hc] at hcall
      cases hcall
      have hcarries := Memo.carries_of_call hpath
        (show Tabled memo.store {w with nesting := w.nesting.inside} from htable) hc
      exact hcarries

/-- **Results last, unless an earlier miss of the same arguments is still in progress.** When
a call through a table returned a value while no miss of its arguments waited, then at every
later moment at which the value and the arguments still live the table has the value, no such
miss is in progress, and a call on equal arguments that starts then has the value as soon as
it has looked into the table: no bottom is evaluated and no case runs. -/
theorem Trait.result_lasts {n : Nat} {memo : Memo} {t : Trait} {receiver v : Value}
    {rest : List Value} {path : List Key} {stack : List Pending} {w₀ w : World} {m : Moment}
    (hmemo : t.layer.memo? = some memo) (hpath : Key.path (receiver :: rest) = .ok path)
    (htable : Tabled memo.store w₀)
    (hcall : t.call (perform n) (receiver :: rest) w₀ = (.ok v, w))
    (hfree : ∀ p ∈ stack, ¬p.Fills memo.store path) (hlives : Moment.Lives path v w.heap)
    (hlater : Moment.Steps memo.store ⟨.answer (.ok v), stack, w⟩ m)
    (hlive : Moment.Lives path v m.world.heap) :
    m.world.stored? memo.store path = some v ∧ (∀ p ∈ m.stack, ¬p.Fills memo.store path) ∧
      ∀ n' t' memo' receiver' rest', m.control = .call n' t' (receiver' :: rest') →
        t'.layer.memo? = some memo' → memo'.store = memo.store →
        Key.path (receiver' :: rest') = .ok path → m.world.nesting.current < t'.layer.maxDepth →
          m.after 3 = ⟨.answer (.ok v), m.stack, m.world⟩ := by
  obtain ⟨htabled, held, hheld, rfl⟩ := Trait.carries_of_call hmemo hpath htable hcall
  have hkeeps : Moment.Keeps memo.store path held ⟨.answer (.ok held.value), stack, w⟩ :=
    ⟨htabled, hheld, hfree⟩
  have hm := hkeeps.steps hlives hlater hlive
  have hstored := World.stored?_of_held? hm.entry hlive.value
  refine ⟨hstored, hm.free, ?_⟩
  intro n' t' memo' receiver' rest' hcontrol hmemo' hsame hpath' hroom
  obtain ⟨c, stack', w'⟩ := m
  cases hcontrol
  exact Moment.after_hit hmemo' hpath' (hsame ▸ hstored) hroom

/-! ### A result that outlasts a miss and a purge -/

/-- A memoized trait that gives a list of its argument, and for a text what it gives for a
new list. -/
def enclosing : Trait :=
  ⟨⟨1, "enclosing", none, [], some ⟨0, .value .null⟩, 6⟩,
    [⟨0, "enclosing", none, [(wildcard, .handler fun args =>
      if args.head?.any (·.kind == .text) then do
        Program.perform (.recur [← Program.newList []])
      else Program.newList args)], none, 6⟩]⟩

/-- A call on a text, with an empty table. -/
def onText : Moment := ⟨.call 9 enclosing [.text "?"], [], {stores := #[⟨.strong, .nil⟩]}⟩

/-- The moment at which the case of that call calls the trait on a list. -/
def onList : Moment := onText.after 7

/-- The moment at which the call on the list has its result. -/
def onListEnded : Moment :=
  ⟨.answer (.ok (.list 1)), onList.stack, (enclosing.call (perform 8) [.list 0] onList.world).2⟩

/-- The world when the call on the text is over too, and the table was purged. -/
def bothEnded : World := (onListEnded.after 4).world.updateStore 0 Store.purged

theorem steps_bothEnded : Moment.Steps 0 onListEnded ⟨.call 2 enclosing [.list 0], [], bothEnded⟩ := by
  have hsteps : Moment.Steps 0 onListEnded (onListEnded.after 4) :=
    .tail (.tail (.tail (.single (.next _)) (.next _)) (.next _)) (.next _)
  exact .tail (hsteps.tail .purge) (.client (.refl _) rfl)

/-- What a call on a list gave while a call on a text waited, and went on, is given for the
list again after all this. -/
theorem enclosed_again :
    Moment.after 3 ⟨.call 2 enclosing [.list 0], [], bothEnded⟩ =
      ⟨.answer (.ok (.list 1)), [], bothEnded⟩ := by
  have htable : Tabled 0 onList.world :=
    Tabled.leads (m := onText) ⟨_, rfl, trivial⟩ ⟨7, rfl⟩
  have hfree : ∀ p ∈ onList.stack, ¬p.Fills 0 [.object 0] := by
    -- The miss that waits is of the text.
    refine List.forall_mem_cons.mpr ⟨id, List.forall_mem_cons.mpr ⟨fun h => ?_, ?_⟩⟩
    · exact absurd h.2 (by decide)
    · exact List.forall_mem_singleton.mpr id
  have hcall : enclosing.call (perform 8) [.list 0] onList.world =
      (.ok (.list 1), onListEnded.world) := rfl
  exact (Trait.result_lasts rfl rfl htable hcall hfree ⟨rfl, rfl⟩ steps_bothEnded ⟨rfl, rfl⟩).2.2 2
    enclosing _ (.list 0) [] rfl rfl rfl rfl (by decide)

end OpenVariants

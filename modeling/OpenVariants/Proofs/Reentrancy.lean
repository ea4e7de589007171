import OpenVariants.Proofs.Lasting
import OpenVariants.Proofs.Reach

/-! Calls of a memoized trait from within.

A miss puts the bottom into the table before the case runs. The table owns the bottom,
unless the bottom reaches its own arguments: then it is held weakly, and lives only as long
as something else owns it. Nothing of this depends on when objects die: a run may let go of
anything at any moment but what the table owns (`Moment.Event`).

While the case runs, and as long as the bottom lives, the table keeps it, every call on the
same arguments is answered with it, and no other miss of them is in progress
(`Memo.reentrant_call`). At a moment at which nothing owns the bottom it is let go of, the
table has nothing for the arguments, and a call on them is another miss. -/
namespace OpenVariants

/-! ### Tables of memoized traits -/

/-- A table holds strongly. -/
def HoldsStrongly (table : StoreId) (w : World) : Prop :=
  ∃ s, w.stores[table]? = some s ∧ s.retention = .strong

namespace HoldsStrongly
variable {table : StoreId} {w : World}

theorem updateStore (hw : HoldsStrongly table w) (id : StoreId)
    (change : Heap → Store → Store) (hc : ∀ h s, (change h s).retention = s.retention) :
    HoldsStrongly table (w.updateStore id change) := by
  obtain ⟨s, hs, hr⟩ := hw
  unfold HoldsStrongly
  rw [World.stores_updateStore, hs]
  split
  · exact ⟨change w.heap s, rfl, (hc _ _).trans hr⟩
  · exact ⟨s, rfl, hr⟩

/-- The table of a trait just memoized holds strongly. -/
theorem memoize (t : Trait) (bottom : Bottom) (w : World) :
    ∃ w', OpenVariants.memoize t bottom w = (.ok w.traits.size, w') ∧
      HoldsStrongly w.stores.size w' := by
  obtain ⟨w', hrun, _, hstore, _⟩ := w.memoize_ok t bottom
  exact ⟨w', hrun, _, hstore, rfl⟩

/-- A value goes into such a table as its own, unless it reaches a key of its path. -/
theorem held?_storeSet (hw : HoldsStrongly table w) {path : List Key} (hpath : path ≠ [])
    (v : Value) :
    (w.storeSet table path v).held? table path =
      some (if w.heap.reachesAny v (path.filterMap Key.object?) then .weak v else .strong v) := by
  obtain ⟨s, hs, hstrong⟩ := hw
  rw [World.held?_storeSet hs hpath, if_pos rfl]
  simp only [Store.stored, hstrong]

end HoldsStrongly

/-- What keeps a value alive when all else is let go of: the table or the values in hand. -/
def World.OwnedBy (table : StoreId) (hand : List Value) (v : Value) (w : World) : Prop :=
  ∀ id, v.object? = some id → w.heap.Reached (w.storeValues table ++ hand) id

namespace Moment

/-! ### What waits below -/

/-- The moment with more that waits. -/
def onto (base : List Pending) (m : Moment) : Moment := {m with stack := m.stack ++ base}

/-- What waits below makes no difference until something comes back to it. -/
theorem next_onto (base : List Pending) {m : Moment}
    (h : ∀ result, m.control = .answer result → m.stack ≠ []) :
    (m.onto base).next = m.next.onto base := by
  obtain ⟨c, stack, w⟩ := m
  cases c with
  | run n frame p => cases p <;> rfl
  | request n frame r => cases n <;> rfl
  | dispatch n t receiver args => rfl
  | call n t args =>
    cases args with
    | nil => rfl
    | cons receiver rest =>
      by_cases hfull : t.layer.maxDepth ≤ w.nesting.current
      · simp only [next, called, if_pos hfull]
        exact if_pos hfull
      · simp only [next, called, if_neg hfull]
        exact if_neg hfull
  | lookUp n memo t receiver args =>
    cases hpath : Key.path args with
    | error f => simp only [next, onto, lookedUp, hpath]
    | ok path =>
      cases hstored : w.stored? memo.store path with
      | some hit => simp only [next, onto, lookedUp, hpath, hstored]
      | none => simp only [next, onto, lookedUp, hpath, hstored, List.cons_append]
  | answer result =>
    cases stack with
    | nil => exact absurd rfl (h result rfl)
    | cons p stack => cases p <;> rcases result with (_ | _) | _ <;> rfl

/-- Back at a case that waits, the next step is its end. -/
theorem not_suffix_of_end {memo : Memo} {path : List Key} {outer : List Pending} {w : World}
    (result : Except Stop Value) :
    ¬.case memo path :: outer <:+ (next ⟨.answer result, .case memo path :: outer, w⟩).stack := by
  intro hsuffix
  have hstack : (next ⟨.answer result, .case memo path :: outer, w⟩).stack = outer := by
    cases result <;> rfl
  rw [hstack] at hsuffix
  exact absurd hsuffix.length_le (by simp)

/-! ### While a case runs -/

/-- What can happen: a step of evaluation; anything else that leaves a table alone, in
particular that objects are made and that others die, but for what the table owns; or a
purge of the table. -/
inductive Event (table : StoreId) : Moment → Moment → Prop
  | next (m : Moment) : Event table m m.next
  | beside (m : Moment) (w : World) (hb : m.world.heap.Before w.heap)
    (hs : w.stores[table]? = m.world.stores[table]?)
    (howned : ∀ v ∈ m.world.storeValues table, m.world.heap.holds v = true →
      w.heap.holds v = true) :
    Event table m {m with world := w}
  | purge (m : Moment) : Event table m {m with world := m.world.updateStore table Store.purged}

/-- Events during all of which the same things wait, and perhaps others on top of them. -/
abbrev EventsOn (table : StoreId) (base : List Pending) : Moment → Moment → Prop :=
  Relation.ReflTransGen fun m m' => Event table m m' ∧ base <:+ m'.stack

theorem Event.before {table : StoreId} {m m' : Moment} (h : Event table m m') :
    m.world.heap.Before m'.world.heap := by
  cases h with
  | next => exact m.before_next
  | beside _ hb => exact hb
  | purge => exact .refl _

theorem before_of_events {table : StoreId} {base : List Pending} {m m' : Moment}
    (h : EventsOn table base m m') : m.world.heap.Before m'.world.heap := by
  induction h with
  | refl => exact .refl _
  | tail _ hevent ih => exact ih.trans hevent.1.before

/-- The machine's own way to install a bottom is such a run: the bottom goes into the table,
and of what was made for it the rest dies. -/
theorem events_install {n : Nat} {memo : Memo} {t : Trait} {receiver b : Value}
    {args : List Value} {path : List Key} {since : ObjectId} {outer : List Pending} {w : World} :
    EventsOn memo.store (.case memo path :: outer)
      ⟨.dispatch n t receiver args, .case memo path :: outer, w.storeSet memo.store path b⟩
      (next ⟨.answer (.ok b), .bottom n memo t receiver args path since :: outer, w⟩) := by
  refine .single ⟨.beside _ _ (World.before_reclaimed _ since) ?_ fun v hv hlive => ?_,
    List.suffix_rfl⟩
  · rw [World.stores_reclaimed]
  · refine World.holds_reclaimed since hlive ?_
    unfold World.storeValues at hv
    cases hs : (w.storeSet memo.store path b).stores[memo.store]? with
    | none =>
      rw [hs] at hv
      cases hv
    | some s =>
      rw [hs] at hv
      exact List.mem_flatMap.mpr ⟨s, Array.mem_toList_iff.mpr (Array.mem_of_getElem? hs), hv⟩

/-- A table has held a value under a path since a miss began to wait for its case, and
since then no other miss of the path is in progress. -/
def KeepsOn (table : StoreId) (path : List Key) (held : Store.Stored) (base : List Pending)
    (m : Moment) : Prop :=
  ∃ above, m.stack = above ++ base ∧ Keeps table path held {m with stack := above}

namespace KeepsOn
variable {table : StoreId} {path path' : List Key} {held : Store.Stored} {v : Value} {memo : Memo}
  {outer : List Pending} {m m₀ m' : Moment}

theorem next (hm : KeepsOn table path held (.case memo path' :: outer) m)
    (hv : m.world.heap.holds held.value = true)
    (hbase : .case memo path' :: outer <:+ m.next.stack) :
    KeepsOn table path held (.case memo path' :: outer) m.next := by
  obtain ⟨above, hstack, hkeeps⟩ := hm
  obtain ⟨c, stack, w⟩ := m
  obtain rfl : stack = above ++ .case memo path' :: outer := hstack
  have hframe : Moment.next ⟨c, above ++ .case memo path' :: outer, w⟩ =
      (Moment.next ⟨c, above, w⟩).onto (.case memo path' :: outer) := by
    refine next_onto (m := ⟨c, above, w⟩) _ ?_
    rintro result rfl rfl
    exact not_suffix_of_end result hbase
  rw [hframe]
  exact ⟨_, rfl, hkeeps.next hv⟩

/-- Whatever happens, the table keeps a value that lives while the case runs. -/
theorem event (hm : KeepsOn table path held (.case memo path' :: outer) m)
    (hlives : Lives path held.value m.world.heap) (h : Event table m m')
    (hbase : .case memo path' :: outer <:+ m'.stack) :
    KeepsOn table path held (.case memo path' :: outer) m' := by
  cases h with
  | next => exact hm.next hlives.value hbase
  | beside _ _ hs =>
    obtain ⟨above, hstack, hkeeps⟩ := hm
    exact ⟨above, hstack, hkeeps.elsewhere hs⟩
  | purge =>
    obtain ⟨above, hstack, hkeeps⟩ := hm
    exact ⟨above, hstack, hkeeps.purge hlives⟩

/-- As long as the value and the keys live, the table keeps the value. -/
theorem events (hm : KeepsOn table path held (.case memo path' :: outer) m)
    (hlives : Lives path held.value m.world.heap)
    (h : EventsOn table (.case memo path' :: outer) m m')
    (hlater : Lives path held.value m'.world.heap) :
    KeepsOn table path held (.case memo path' :: outer) m' := by
  induction h with
  | refl => exact hm
  | tail hevents hevent ih =>
    have hbetween := hlives.of_later (before_of_events hevents) hevent.1.before hlater
    exact (ih hbetween).event hbetween hevent.1 hevent.2

/-- What the table owns lives on. -/
theorem holds_event (hm : KeepsOn table path (.strong v) (.case memo path' :: outer) m)
    (hv : m.world.heap.holds v = true) (h : Event table m m')
    (hbase : .case memo path' :: outer <:+ m'.stack) : m'.world.heap.holds v = true := by
  cases h with
  | beside _ _ _ howned => exact howned v (World.mem_storeValues hm.choose_spec.2.entry) hv
  | purge => exact hv
  | next =>
    obtain ⟨_, _, hkeeps⟩ := hm.next hv hbase
    have hentry : m.next.world.held? table path = some (.strong v) := hkeeps.entry
    have hchange := m.change
    generalize m.next = m' at hchange hentry
    cases hchange with
    | quiet hq =>
      rw [Heap.holds_iff] at hv ⊢
      intro id hid
      obtain ⟨o, ho⟩ := Heap.alive_iff.mp (hv id hid)
      exact Heap.alive_iff.mpr ⟨o, hq.extends_ id o ho⟩
    | install =>
      -- Of all steps only this one lets objects die, and not those of the table.
      rw [World.held?_reclaimed] at hentry
      exact World.holds_reclaimed _ hv (World.mem_owners hentry)
    | wait | enter | miss | resume | leave | abandon | result | failure => exact hv

/-- What the table owns lives as long as the keys. -/
theorem holds_events (hm : KeepsOn table path (.strong v) (.case memo path' :: outer) m)
    (hlives : Lives path v m.world.heap)
    (h : EventsOn table (.case memo path' :: outer) m m')
    (hkeys : path.all (·.alive m'.world.heap.alive) = true) : m'.world.heap.holds v = true := by
  induction h with
  | refl => exact hlives.value
  | tail hevents hevent ih =>
    -- Keys that live later lived before.
    have hkeys₀ : Lives path .null m.world.heap := ⟨rfl, hlives.keys⟩
    have hbetween := hkeys₀.of_later (before_of_events hevents) hevent.1.before ⟨rfl, hkeys⟩
    have hv := ih hbetween.keys
    exact (hm.events hlives hevents ⟨hv, hbetween.keys⟩).holds_event hv hevent.1 hevent.2

end KeepsOn

/-! ### What a call finds -/

/-- A case runs whose arguments have a value in the table: no other miss of them is in
progress since it began, and a call on them is answered with the value at once. -/
structure Sees (table : StoreId) (path : List Key) (v : Value) (base : List Pending)
    (m : Moment) : Prop where
  stored : m.world.stored? table path = some v
  alone : ∃ above, m.stack = above ++ base ∧ ∀ p ∈ above, ¬p.Fills table path
  looked : ∀ n memo t receiver args, m.control = .lookUp n memo t receiver args →
    memo.store = table → Key.path args = .ok path → m.next = {m with control := .answer (.ok v)}
  called : ∀ n t memo receiver rest, m.control = .call n t (receiver :: rest) →
    t.layer.memo? = some memo → memo.store = table → Key.path (receiver :: rest) = .ok path →
    m.world.nesting.current < t.layer.maxDepth → m.after 3 = {m with control := .answer (.ok v)}

/-- The table has nothing for the arguments: a call on them has the bottom evaluated. -/
structure Misses (table : StoreId) (path : List Key) (m : Moment) : Prop where
  stored : m.world.stored? table path = none
  looked : ∀ n memo t receiver args, m.control = .lookUp n memo t receiver args →
    memo.store = table → Key.path args = .ok path →
    m.next = ⟨bottomed n args memo.bottom,
      .bottom n memo t receiver args path m.world.nextObject :: m.stack, m.world⟩

theorem KeepsOn.sees {table : StoreId} {path : List Key} {held : Store.Stored}
    {base : List Pending} {m : Moment} (hm : KeepsOn table path held base m)
    (hv : m.world.heap.holds held.value = true) : Sees table path held.value base m := by
  obtain ⟨above, hstack, hkeeps⟩ := hm
  obtain ⟨c, stack, w⟩ := m
  have hstored : w.stored? table path = some held.value := World.stored?_of_held? hkeeps.entry hv
  refine ⟨hstored, ⟨above, hstack, hkeeps.free⟩, ?_, ?_⟩
  · rintro n memo t receiver args rfl rfl hpath
    simp only [Moment.next, lookedUp, hpath, hstored]
  · rintro n t memo receiver rest rfl hmemo rfl hpath hroom
    exact after_hit hmemo hpath hstored hroom

theorem misses_of_stored {table : StoreId} {path : List Key} {m : Moment}
    (hstored : m.world.stored? table path = none) : Misses table path m := by
  obtain ⟨c, stack, w⟩ := m
  refine ⟨hstored, ?_⟩
  rintro n memo t receiver args rfl rfl hpath
  simp only [Moment.next, lookedUp, hpath, show w.stored? memo.store path = none from hstored]

/-! ### Letting go -/

/-- The moment at which all is let go of but what a table owns and some values in hand. -/
def lettingGo (table : StoreId) (hand : List Value) (m : Moment) : Moment :=
  {m with world := {m.world with
    heap := m.world.heap.collect (m.world.storeValues table ++ hand)}}

/-- Letting go is one of the things that can happen. -/
theorem event_lettingGo (table : StoreId) (hand : List Value) (m : Moment) :
    Event table m (m.lettingGo table hand) := by
  refine .beside m _ ⟨Nat.le_of_eq (Heap.size_collect _ _).symm, fun id o _ ho => ?_⟩ rfl
    fun v hv hlive => ?_
  · have ho : (m.world.heap.collect _).object? id = some o := ho
    rw [Heap.object?_collect] at ho
    split at ho
    · exact ho
    · cases ho
  · rw [Heap.holds_iff] at hlive ⊢
    intro id hid
    obtain ⟨o, ho⟩ := Heap.alive_iff.mp (hlive id hid)
    refine Heap.alive_iff.mpr ⟨o, (Heap.object?_collect ..).trans ?_⟩
    rw [if_pos (Heap.marked_root (List.mem_append_left _ hv) hid (Heap.lt_size ho)), ho]

/-- A value lives on exactly if the table or a value in hand owns it. -/
theorem holds_lettingGo {table : StoreId} {hand : List Value} {v : Value} {m : Moment}
    (hs : m.world.heap.Sound) (hv : m.world.heap.holds v = true) :
    (m.lettingGo table hand).world.heap.holds v = true ↔ m.world.OwnedBy table hand v := by
  rw [Heap.holds_iff] at hv ⊢
  refine forall₂_congr fun id hid => (Heap.alive_collect hs _ id).trans ?_
  rw [and_iff_right (hv id hid)]

end Moment

open Moment in
/-- **A reentrant call sees the bottom, as long as the bottom lives.** A miss has put its
bottom into the table, and its case still runs; whatever happened and died meanwhile, the
arguments live. A bottom that does not reach the arguments lives too, for the table owns it.
And if the bottom lives, the table has it, no other miss of the arguments began since, and a
call on them is answered with it at once. It lives on just as long as the table or something
in hand owns it: if all else is let go of it is still seen then, and if nothing owns it a call
on the arguments is a miss again. -/
theorem Memo.reentrant_call {n : Nat} {memo : Memo} {t : Trait} {receiver b : Value}
    {args : List Value} {path : List Key} {outer : List Pending} {w : World} {m : Moment}
    (hpath : Key.path args = .ok path) (htable : Tabled memo.store w)
    (hstrong : HoldsStrongly memo.store w) (hlives : Lives path b w.heap)
    (hm : EventsOn memo.store (.case memo path :: outer)
      ⟨.dispatch n t receiver args, .case memo path :: outer, w.storeSet memo.store path b⟩ m)
    (hkeys : path.all (·.alive m.world.heap.alive) = true) :
    (w.heap.reachesAny b (path.filterMap Key.object?) = false → m.world.heap.holds b = true) ∧
    (m.world.heap.holds b = true →
      Sees memo.store path b (.case memo path :: outer) m ∧
      (m.world.heap.Sound → ∀ hand, Event memo.store m (m.lettingGo memo.store hand) ∧
        (m.world.OwnedBy memo.store hand b →
          Sees memo.store path b (.case memo path :: outer) (m.lettingGo memo.store hand)) ∧
        (¬m.world.OwnedBy memo.store hand b →
          Misses memo.store path (m.lettingGo memo.store hand)))) := by
  have hheld := hstrong.held?_storeSet (Key.path_ok hpath).2 b
  have hstart (held : Store.Stored)
      (h : (w.storeSet memo.store path b).held? memo.store path = some held) :
      KeepsOn memo.store path held (.case memo path :: outer)
        ⟨.dispatch n t receiver args, .case memo path :: outer, w.storeSet memo.store path b⟩ :=
    ⟨[], rfl, htable.storeSet _ _ _, h, List.forall_mem_nil _⟩
  refine ⟨fun hfree => ?_, fun hb => ?_⟩
  · rw [if_neg (by simp [hfree])] at hheld
    exact (hstart _ hheld).holds_events hlives hm hkeys
  · obtain ⟨held, hheld, rfl⟩ := World.carries_storeSet htable (Key.path_ok hpath).2 b
    have hkeeps := (hstart held hheld).events hlives hm ⟨hb, hkeys⟩
    refine ⟨hkeeps.sees hb,
      fun hsound hand => ⟨event_lettingGo _ _ m, fun howned => ?_, fun hlost => ?_⟩⟩
    · obtain ⟨above, hstack, hon⟩ := hkeeps
      refine KeepsOn.sees ⟨above, hstack, hon.elsewhere rfl⟩ ?_
      exact (holds_lettingGo hsound hb).mpr howned
    · refine misses_of_stored (World.stored?_of_dead (v := held.value) ?_ fun held' hheld' => ?_)
      · rw [← Bool.not_eq_true]
        exact fun hlive => hlost ((holds_lettingGo hsound hb).mp hlive)
      · -- The table does not own it, so it holds it weakly.
        obtain ⟨above, hstack, hon⟩ := hkeeps
        cases hon.entry.symm.trans hheld'
        cases held with
        | weak v => rfl
        | strong v =>
          refine absurd (fun id hid => ?_) hlost
          have howns := World.mem_storeValues hon.entry
          exact .root _ id (List.mem_append_left _ howns) hid

namespace Moment

/-! ### A bottom with an owner and one without -/

/-- A trait that calls itself on its argument through a table. -/
def forever (memo : Memo) : Trait :=
  ⟨⟨1, "forever", none, [], some memo, 6⟩,
    [⟨0, "forever", none, [(wildcard, .handler fun args => Program.perform (.recur args))], none, 6⟩]⟩

/-- A table whose bottom is a new list of some of the arguments. -/
def listing (choose : List Value → List Value) : Memo :=
  ⟨0, .compute fun args => Program.newList (choose args)⟩

/-- A world with one list and an empty table. -/
def oneList : World := {(World.newContent (.items []) {}).2 with stores := #[⟨.strong, .nil⟩]}

/-- A call of such a trait on the list. -/
def calling (choose : List Value → List Value) : Moment :=
  ⟨.call 9 (forever (listing choose)) [.list 0], [], oneList⟩

/-- The call when the bottom is in the table, and nothing has died yet. -/
def founded (choose : List Value → List Value) : Moment :=
  ⟨.dispatch 9 (forever (listing choose)) (.list 0) [.list 0],
    [.case (listing choose) [.object 0], .call (forever (listing choose)) [.list 0] false],
    ((calling choose).after 4).world.storeSet 0 [.object 0] (.list 1)⟩

/-- Four steps later the case has called the trait again, and the call is at the table. -/
theorem events_founded (choose : List Value → List Value) :
    EventsOn 0 (founded choose).stack (founded choose) ((founded choose).after 4) := by
  refine .tail (.tail (.tail (.tail .refl ⟨.next _, [], rfl⟩) ⟨.next _, [_], rfl⟩)
    ⟨.next _, [_], rfl⟩) ⟨.next _, [_, _], rfl⟩

/-- An empty list as the bottom lives on, so the call comes there by itself. -/
theorem events_calling : EventsOn 0 (founded fun _ => []).stack (founded fun _ => [])
    ((calling fun _ => []).after 9) := by
  have hinstall : EventsOn 0 (founded fun _ => []).stack (founded fun _ => [])
      ((calling fun _ => []).after 5) :=
    @events_install 9 (listing fun _ => []) (forever (listing fun _ => [])) (.list 0) (.list 1)
      [.list 0] [.object 0] 1 [.call (forever (listing fun _ => [])) [.list 0] false]
      ((calling fun _ => []).after 4).world
  refine .tail (.tail (.tail (.tail hinstall ⟨.next _, [], rfl⟩) ⟨.next _, [_], rfl⟩)
    ⟨.next _, [_], rfl⟩) ⟨.next _, [_, _], rfl⟩

theorem sound_founded {choose : List Value → List Value}
    (hchoose : ∀ v ∈ choose [.list 0], v = .list 0) :
    ((founded choose).after 4).world.heap.Sound := by
  have hempty : Heap.Sound {} := fun i o ho => by cases ho
  have hone := hempty.push (.content (.items [])) (List.forall_mem_nil _)
  refine hone.push (.content (.items (choose [.list 0]))) fun v hv => ?_
  rw [hchoose v hv]
  exact Heap.proper_reference (o := .content (.items [])) rfl

/-- With nothing in hand but the argument, a bottom that is an empty list is seen, and one
that is a list of the argument is not; it is as long as it is in hand itself. -/
theorem empty_list_seen_full_list_lost :
    (((calling fun _ => []).after 9).lettingGo 0 [.list 0]).next =
      {((calling fun _ => []).after 9).lettingGo 0 [.list 0] with control := .answer (.ok (.list 1))} ∧
    (((founded id).after 4).lettingGo 0 [.list 1]).next =
      {((founded id).after 4).lettingGo 0 [.list 1] with control := .answer (.ok (.list 1))} ∧
    Misses 0 [.object 0] (((founded id).after 4).lettingGo 0 [.list 0]) := by
  have hcall (choose : List Value → List Value) (m : Moment) := @Memo.reentrant_call 9
    (listing choose) (forever (listing choose)) (.list 0) (.list 1) [.list 0] [.object 0]
    [.call (forever (listing choose)) [.list 0] false] ((calling choose).after 4).world m rfl
    ⟨_, rfl, trivial⟩ ⟨_, rfl, rfl⟩ ⟨rfl, rfl⟩
  have hsound : ((founded id).after 4).world.heap.Sound :=
    sound_founded fun v hv => List.mem_singleton.mp hv
  obtain ⟨-, hafter⟩ := (hcall id _ (events_founded id) rfl).2 rfl
  refine ⟨?_, ?_, (hafter hsound [.list 0]).2.2 fun howned => ?_⟩
  · have hsound' : ((calling fun _ => []).after 9).world.heap.Sound :=
      @sound_founded (fun _ => []) (List.forall_mem_nil _)
    obtain ⟨hfree, hlives⟩ := hcall (fun _ => []) _ events_calling rfl
    have howned : ((calling fun _ => []).after 9).world.OwnedBy 0 [.list 0] (.list 1) := fun id hid =>
      .root (.list 1) id List.mem_cons_self hid
    have hsees := ((hlives (hfree (by decide))).2 hsound' _).2.1 howned
    exact hsees.looked _ _ _ _ _ rfl rfl rfl
  · have hsees :=
      (hafter hsound [.list 1]).2.1 fun id hid => .root (.list 1) id List.mem_cons_self hid
    exact hsees.looked _ _ _ _ _ rfl rfl rfl
  · have hmarked := (Heap.marked_iff hsound _ 1).mpr ⟨howned 1 rfl, by decide⟩
    exact absurd hmarked (by decide)

/-- So a call of the trait whose bottom is a list of the argument never comes to it: it ends
when no more calls may be nested. -/
theorem full_list_never_seen :
    ((forever (listing id)).call (perform 9) [.list 0] oneList).1 =
      .error (.fault (.dispatch (.recursionLimit "forever" 6))) := by decide +kernel

end Moment

end OpenVariants

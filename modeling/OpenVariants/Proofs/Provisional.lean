import OpenVariants.Proofs.Lasting

/-! Bottoms are provisional.

While a case runs on a miss its arguments have the bottom in the table. That is over when
the case is: what is in the table is either under the path of a miss in progress, or it is
what the case of some earlier miss of this path returned (`Provisional.entries`). This
holds at every moment, whatever fails, is called again, is let go of or is purged on the
way; so when no call of the trait is active there is no bottom in its table, and a case
that fails leaves nothing under its path (`no_bottom_survives`). -/
namespace OpenVariants

/-! ### Where misses wait -/

/-- A miss waits right inside the call that missed. -/
def Framed : List Pending → Prop
  | [] => True
  | .bottom _ memo t receiver args path _ :: rest =>
    t.layer.memo? = some memo ∧ args.head? = some receiver ∧ Key.path args = .ok path ∧
      (∃ segment outer, rest = .call t args segment :: outer) ∧ Framed rest
  | .case memo path :: rest =>
    (∃ t args segment outer, rest = .call t args segment :: outer ∧ t.layer.memo? = some memo ∧
      Key.path args = .ok path) ∧ Framed rest
  | .body .. :: rest | .call .. :: rest => Framed rest

namespace Moment

/-- Only the begin of a call looks into a table. -/
theorem next_lookUp {m : Moment} {n : Nat} {memo : Memo} {t : Trait} {receiver : Value}
    {args : List Value} (h : m.next.control = .lookUp n memo t receiver args) :
    m.control = .call n t args ∧ t.layer.memo? = some memo ∧ args.head? = some receiver ∧
      ∃ segment, m.next.stack = .call t args segment :: m.stack := by
  obtain ⟨c, stack, w⟩ := m
  cases c with
  | run n' frame p => cases p <;> cases h
  | request n' frame r =>
    cases n' with
    | zero => cases h
    | succ n' =>
      simp only [next, requested] at h
      repeat' split at h
      all_goals cases h
  | call n' t' args' =>
    simp only [next, called] at h ⊢
    split at h
    · cases h
    · split at h
      · cases h
      · next hroom =>
        unfold body at h ⊢
        split at h
        · next memo' hmemo =>
          cases h
          exact ⟨rfl, hmemo, rfl, _, by rw [if_neg hroom]⟩
        · cases h
  | lookUp n' memo' t' receiver' args' =>
    simp only [next, lookedUp, bottomed] at h
    repeat' split at h
    all_goals cases h
  | dispatch n' t' receiver' args' =>
    simp only [next, dispatched] at h
    split at h <;> cases h
  | answer result =>
    cases stack with
    | nil => cases h
    | cons p rest =>
      simp only [next, resumed] at h
      repeat' split at h
      all_goals cases h

/-- Each miss waits inside its call, and so does a look into a table. -/
structure Framed (m : Moment) : Prop where
  lookUp : ∀ n memo t receiver args, m.control = .lookUp n memo t receiver args →
    t.layer.memo? = some memo ∧ args.head? = some receiver ∧
      ∃ segment outer, m.stack = .call t args segment :: outer
  stack : OpenVariants.Framed m.stack

theorem Framed.next {m : Moment} (hm : m.Framed) : m.next.Framed := by
  refine ⟨fun n memo t receiver args h => ?_, ?_⟩
  · obtain ⟨-, hmemo, hhead, segment, hstack⟩ := next_lookUp h
    exact ⟨hmemo, hhead, segment, _, hstack⟩
  · have hchange := m.change
    generalize m.next = m' at hchange
    obtain ⟨hlook, hstack⟩ := hm
    cases hchange with
    | quiet | wait | enter | resume | leave => exact hstack
    | miss hpath _ =>
      obtain ⟨hmemo, hhead, hcall⟩ := hlook _ _ _ _ _ rfl
      exact ⟨hmemo, hhead, hpath, hcall, hstack⟩
    | install =>
      obtain ⟨hmemo, _, hpath, ⟨segment, outer, rfl⟩, hrest⟩ := hstack
      exact ⟨⟨_, _, segment, outer, rfl, hmemo, hpath⟩, hrest⟩
    | abandon => exact hstack.2.2.2.2
    | result | failure => exact hstack.2

end Moment

/-! ### Runs with anything in between -/

/-- An evaluation begins with anything but the inside of a call. -/
def Control.Begins : Control → Prop
  | .lookUp .. | .dispatch .. => False
  | _ => True

namespace Moment

/-- What can happen: a step of evaluation, anything else that leaves a table alone, in
particular that objects are made and die, a purge of the table, or a new evaluation when
the last one is over. -/
inductive Turn (table : StoreId) : Moment → Moment → Prop
  | next (m : Moment) : Turn table m m.next
  | elsewhere (m : Moment) (w : World) (hs : w.stores[table]? = m.world.stores[table]?) :
    Turn table m {m with world := w}
  | purge (m : Moment) : Turn table m {m with world := m.world.updateStore table Store.purged}
  | begin (result : Except Stop Value) (c : Control) (w : World) (hc : c.Begins) :
    Turn table (ended result w) ⟨c, [], w⟩

/-- Any number of turns. -/
abbrev Turns (table : StoreId) : Moment → Moment → Prop := Relation.ReflTransGen (Turn table)

/-- Turns during all of which the same things wait, and perhaps others on top of them. -/
abbrev TurnsOn (table : StoreId) (base : List Pending) : Moment → Moment → Prop :=
  Relation.ReflTransGen fun m m' => Turn table m m' ∧ base <:+ m'.stack

/-- The case of a miss of the path was started, and since then the miss has waited. -/
def Started (table : StoreId) (m₀ m : Moment) (path : List Key) (base : List Pending) : Prop :=
  ∃ n memo t receiver args outer w, t.layer.memo? = some memo ∧ memo.store = table ∧
    args.head? = some receiver ∧ Key.path args = .ok path ∧ base = .case memo path :: outer ∧
    Turns table m₀ ⟨.dispatch n t receiver args, base, w⟩ ∧
    TurnsOn table base ⟨.dispatch n t receiver args, base, w⟩ m

/-- The case of a miss of the path was started and returned the value. -/
def Returned (table : StoreId) (m₀ m : Moment) (path : List Key) (v : Value) : Prop :=
  ∃ base w, Started table m₀ ⟨.answer (.ok v), base, w⟩ path base ∧
    Turns table ⟨.answer (.ok v), base, w⟩ m

theorem Started.turn {table : StoreId} {m₀ m m' : Moment} {path : List Key} {base : List Pending}
    (h : Started table m₀ m path base) (ht : Turn table m m') (hbase : base <:+ m'.stack) :
    Started table m₀ m' path base := by
  obtain ⟨n, memo, t, receiver, args, outer, w, hmemo, htable, hhead, hpath, heq, hbefore, hon⟩ := h
  exact ⟨n, memo, t, receiver, args, outer, w, hmemo, htable, hhead, hpath, heq, hbefore,
    hon.tail ⟨ht, hbase⟩⟩

theorem Returned.turn {table : StoreId} {m₀ m m' : Moment} {path : List Key} {v : Value}
    (h : Returned table m₀ m path v) (ht : Turn table m m') : Returned table m₀ m' path v := by
  obtain ⟨base, w, hstarted, hlater⟩ := h
  exact ⟨base, w, hstarted, hlater.tail ht⟩

/-! ### What is in the table -/

/-- A miss of a table under a path waits for its case. -/
def InProgress (table : StoreId) (path : List Key) (stack : List Pending) : Prop :=
  ∃ memo outer, .case memo path :: outer <:+ stack ∧ memo.store = table

/-- What is known of a table: each miss that waits for its case started it, and whatever
the table has is under the path of such a miss or is what an earlier one returned. -/
structure Provisional (table : StoreId) (m₀ m : Moment) : Prop where
  reached : Turns table m₀ m
  framed : m.Framed
  tabled : Tabled table m.world
  started : ∀ memo path outer, .case memo path :: outer <:+ m.stack → memo.store = table →
    Started table m₀ m path (.case memo path :: outer)
  entries : ∀ path held, m.world.held? table path = some held →
    InProgress table path m.stack ∨ Returned table m₀ m path held.value

namespace Provisional
variable {table : StoreId} {m₀ m m' : Moment}

/-- A turn after which the same misses wait for their cases, and the table has nothing new. -/
theorem of_same (hm : Provisional table m₀ m) (ht : Turn table m m') (hframed : m'.Framed)
    (htabled : Tabled table m'.world)
    (hcases : ∀ memo path outer, .case memo path :: outer <:+ m'.stack ↔
      .case memo path :: outer <:+ m.stack)
    (hheld : ∀ path held, m'.world.held? table path = some held →
      m.world.held? table path = some held) : Provisional table m₀ m' where
  reached := hm.reached.tail ht
  framed := hframed
  tabled := htabled
  started memo path outer hcase htable :=
    (hm.started memo path outer ((hcases ..).mp hcase) htable).turn ht hcase
  entries path held h := by
    rcases hm.entries path held (hheld path held h) with ⟨memo, outer, hcase, htable⟩ | hreturned
    · exact .inl ⟨memo, outer, (hcases ..).mpr hcase, htable⟩
    · exact .inr (hreturned.turn ht)

/-- The case of a miss ends: what it returned is in the table under its path, or nothing is. -/
theorem of_end (hm : Provisional table m₀ m) (ht : Turn table m m') (hframed : m'.Framed)
    (htabled : Tabled table m'.world) {memo : Memo} {path : List Key}
    (hstack : m.stack = .case memo path :: m'.stack)
    (hheld : ∀ q held, m'.world.held? table q = some held →
      (¬(memo.store = table ∧ path = q) ∧ m.world.held? table q = some held) ∨
        Returned table m₀ m' q held.value) : Provisional table m₀ m' where
  reached := hm.reached.tail ht
  framed := hframed
  tabled := htabled
  started memo' path' outer hcase htable := by
    refine (hm.started memo' path' outer ?_ htable).turn ht hcase
    rw [hstack]
    exact hcase.trans (List.suffix_cons _ _)
  entries q held h := by
    rcases hheld q held h with ⟨hother, h⟩ | hreturned
    · rcases hm.entries q held h with ⟨memo', outer, hcase, htable⟩ | hreturned
      · -- The miss that ended is not the one of this path.
        rw [hstack, List.suffix_cons_iff] at hcase
        rcases hcase with heq | hcase
        · cases heq
          exact absurd ⟨htable, rfl⟩ hother
        · exact .inl ⟨memo', outer, hcase, htable⟩
      · exact .inr (hreturned.turn ht)
    · exact .inr hreturned

/-- What does not wait for a case makes no difference to what does. -/
theorem case_suffix_cons {p : Pending} (hp : ∀ memo path, p ≠ .case memo path) (memo : Memo)
    (path : List Key) (outer stack : List Pending) :
    .case memo path :: outer <:+ p :: stack ↔ .case memo path :: outer <:+ stack := by
  rw [List.suffix_cons_iff, List.cons.injEq]
  exact or_iff_right fun h => hp memo path h.1.symm

theorem next (hm : Provisional table m₀ m) : Provisional table m₀ m.next := by
  have ht : Turn table m m.next := .next m
  have hframed := hm.framed.next
  have htabled := hm.tabled.next
  have hchange := m.change
  generalize m.next = m' at ht hframed htabled hchange
  cases hchange with
  | quiet hq =>
    refine hm.of_same ht hframed htabled (fun _ _ _ => .rfl) fun path held h => ?_
    exact (World.held?_congr (by rw [hq.stores]) path).symm.trans h
  | wait | enter | miss =>
    exact hm.of_same ht hframed htabled
      (fun _ _ _ => case_suffix_cons (fun _ _ h => by cases h) _ _ _ _) fun _ _ h => h
  | resume | leave | abandon =>
    exact hm.of_same ht hframed htabled
      (fun _ _ _ => (case_suffix_cons (fun _ _ h => by cases h) _ _ _ _).symm) fun _ _ h => h
  | @install n memo t receiver args path since b stack w =>
    obtain ⟨hmemo, hhead, hpath, _, _⟩ := hm.framed.stack
    have hunder := case_suffix_cons (p := .bottom n memo t receiver args path since)
      (fun _ _ h => by cases h)
    refine ⟨hm.reached.tail ht, hframed, htabled, fun memo' path' outer hcase htable => ?_,
      fun q held h => ?_⟩
    · rcases List.suffix_cons_iff.mp hcase with heq | hcase'
      · cases heq
        exact ⟨n, memo, t, receiver, args, stack, _, hmemo, htable, hhead, hpath, rfl,
          hm.reached.tail ht, .refl⟩
      · exact (hm.started memo' path' outer ((hunder ..).mpr hcase') htable).turn ht hcase
    · by_cases hq : memo.store = table ∧ path = q
      · exact .inl ⟨memo, stack, hq.2 ▸ List.suffix_rfl, hq.1⟩
      · -- Elsewhere the table is as it was.
        have hsame : World.held? table q ((w.storeSet memo.store path b).reclaimed since) =
            w.held? table q :=
          (World.held?_reclaimed ..).trans (World.held?_storeSet_ne hq b w)
        rcases hm.entries q held (hsame.symm.trans h) with ⟨memo', outer, hcase, htable⟩ | hreturned
        · exact .inl ⟨memo', outer, ((hunder ..).mp hcase).trans (List.suffix_cons _ _), htable⟩
        · exact .inr (hreturned.turn ht)
  | @result memo path v stack w =>
    obtain ⟨⟨t, args, segment, outer, _, _, hpath⟩, _⟩ := hm.framed.stack
    refine hm.of_end ht hframed htabled rfl fun q held h => ?_
    by_cases hq : memo.store = table ∧ path = q
    · obtain ⟨rfl, rfl⟩ := hq
      obtain ⟨held', hheld, rfl⟩ := World.carries_storeSet hm.tabled (Key.path_ok hpath).2 v
      cases hheld.symm.trans h
      exact .inr ⟨_, w, hm.started memo path stack List.suffix_rfl rfl, .single ht⟩
    · exact .inl ⟨hq, (World.held?_storeSet_ne hq v w).symm.trans h⟩
  | @failure memo path stop stack w =>
    refine hm.of_end ht hframed htabled rfl fun q held h => ?_
    by_cases hq : memo.store = table ∧ path = q
    · obtain ⟨rfl, rfl⟩ := hq
      have hnone := w.held?_storeErase memo.store path path
      rw [if_pos rfl] at hnone
      cases hnone.symm.trans h
    · exact .inl ⟨hq, (World.held?_storeErase_ne hq w).symm.trans h⟩

/-- Whatever happens, only misses in progress have a bottom in the table. -/
theorem turn (hm : Provisional table m₀ m) (ht : Turn table m m') : Provisional table m₀ m' := by
  cases ht with
  | next => exact hm.next
  | elsewhere _ w hs =>
    refine hm.of_same (.elsewhere m w hs) ⟨hm.framed.lookUp, hm.framed.stack⟩ (hm.tabled.of_stores hs)
      (fun _ _ _ => .rfl) fun path held h => ?_
    exact (World.held?_congr hs path).symm.trans h
  | purge =>
    refine hm.of_same (.purge m) ⟨hm.framed.lookUp, hm.framed.stack⟩ hm.tabled.purged
      (fun _ _ _ => .rfl) fun path held h => ?_
    obtain ⟨s, hs, hd⟩ := hm.tabled
    rw [World.held?_purged hs hd] at h
    split at h
    · exact Option.eq_some_of_filter_eq_some h
    · cases h
  | begin result c w hc =>
    refine hm.of_same (.begin result c w hc) ⟨fun n memo t receiver args h => ?_, trivial⟩ hm.tabled
      (fun _ _ _ => .rfl) fun _ _ h => h
    cases h
    exact hc.elim

/-- An empty table has no bottoms. -/
theorem start {result : Except Stop Value} {w : World} {retention : Retention}
    (hw : w.stores[table]? = some ⟨retention, .nil⟩) :
    Provisional table (ended result w) (ended result w) where
  reached := .refl
  framed := ⟨fun _ _ _ _ _ h => (by cases h), trivial⟩
  tabled := ⟨_, hw, trivial⟩
  started memo path outer hcase := by cases List.suffix_nil.mp hcase
  entries path held h := by
    simp [World.held?, ended, hw] at h

end Provisional

end Moment

end OpenVariants

import Mathlib.Tactic.IntervalCases
import OpenVariants.Proofs.Limits
import OpenVariants.Proofs.Provisional
import OpenVariants.Proofs.Reentrancy

/-! Memoized recursion on cyclic data.

A trait that calls nothing but itself, through a memo table, goes round a cycle once: the
arguments of a case that runs stay in the table, with the bottom first, and a call on them
is answered from there. So the cases that run at one time are on different arguments
(`Nest.nodup`), as many as there are arguments at most; and the innermost call, which
looks into the table, is one more. A limit that allows for one more call than there are
arguments is never reached (`Trait.rounds_bounded`). -/
namespace OpenVariants

/-! ### What waits in a run of one trait -/

/-- The arguments of the cases that run, innermost first. -/
def running : List Pending → List (List Key)
  | [] => []
  | .case _ path :: rest => path :: running rest
  | _ :: rest => running rest

def Pending.IsBottom : Pending → Prop
  | .bottom .. => True
  | _ => False

/-- What the innermost call is at: its case, the table, or its bottom. -/
inductive Phase where
  | inside | looking | founding
  deriving DecidableEq

/-- Calls of one trait in each other: each is at its case but the innermost, which may look
into the table or have its bottom computed, and no two are on the same arguments. -/
inductive Nest (t : Trait) (memo : Memo) (passed : Set (List Key)) (old : Nat) :
    Phase → List Pending → Prop
  | nil : Nest t memo passed old .inside []
  | body {phase : Phase} {n : Nat} {frame : Option Frame}
    {next : Except Fault Value → Program Value} {stack : List Pending} (hphase : phase ≠ .looking)
    (h : Nest t memo passed old phase stack) :
    Nest t memo passed old phase (.body n frame next :: stack)
  | call {args : List Value} {segment : Bool} {stack : List Pending}
    (hpassed : ∀ path, Key.path args = .ok path → path ∈ passed)
    (h : Nest t memo passed old .inside stack) :
    Nest t memo passed old .looking (.call t args segment :: stack)
  | bottom {n : Nat} {receiver : Value} {args : List Value} {path : List Key} {since : ObjectId}
    {segment : Bool} {stack : List Pending} (hpath : Key.path args = .ok path)
    (hnew : path ∉ running stack) (hsince : old ≤ since)
    (h : Nest t memo passed old .looking (.call t args segment :: stack)) :
    Nest t memo passed old .founding
      (.bottom n memo t receiver args path since :: .call t args segment :: stack)
  | case {args : List Value} {path : List Key} {segment : Bool} {stack : List Pending}
    (hpath : Key.path args = .ok path) (hnew : path ∉ running stack)
    (h : Nest t memo passed old .looking (.call t args segment :: stack)) :
    Nest t memo passed old .inside (.case memo path :: .call t args segment :: stack)

namespace Nest
variable {t : Trait} {memo : Memo} {passed : Set (List Key)} {old : Nat} {phase : Phase}
  {stack : List Pending}

/-- Besides the calls at their cases at most one is active. -/
theorem active_eq (h : Nest t memo passed old phase stack) :
    active stack = (running stack).length + if phase = .inside then 0 else 1 := by
  induction h with
  | nil => rfl
  | body _ _ ih => exact ih
  | call _ _ ih => simpa [active, running] using ih
  | bottom _ _ _ _ ih => simpa [active, running] using ih
  | case _ _ _ ih => simpa [active, running] using ih

/-- No two cases run on the same arguments. -/
theorem nodup (h : Nest t memo passed old phase stack) : (running stack).Nodup := by
  induction h with
  | nil => exact List.nodup_nil
  | body _ _ ih | call _ _ ih | bottom _ _ _ _ ih => exact ih
  | case _ hnew _ ih => exact List.nodup_cons.mpr ⟨hnew, ih⟩

theorem passed_of_call {args : List Value} {segment : Bool} {path : List Key}
    (h : Nest t memo passed old .looking (.call t args segment :: stack))
    (hpath : Key.path args = .ok path) : path ∈ passed := by
  cases h with
  | call hpassed _ => exact hpassed path hpath

theorem subset (h : Nest t memo passed old phase stack) : ∀ path ∈ running stack, path ∈ passed := by
  induction h with
  | nil => exact List.forall_mem_nil _
  | body _ _ ih | call _ _ ih | bottom _ _ _ _ ih => exact ih
  | case hpath _ h ih => exact List.forall_mem_cons.mpr ⟨h.passed_of_call hpath, ih⟩

/-- As many cases run as there are arguments, at most. -/
theorem length_le (h : Nest t memo passed old phase stack) :
    ((running stack).length : ℕ∞) ≤ passed.encard := by
  rw [← encard_of_nodup h.nodup]
  exact Set.encard_le_encard h.subset

theorem bottom_of_founding (h : Nest t memo passed old .founding stack) :
    ∃ p ∈ stack, p.IsBottom := by
  generalize hphase : Phase.founding = phase at h
  induction h with
  | nil | call | case => cases hphase
  | body _ _ ih =>
    obtain ⟨p, hp, hb⟩ := ih hphase
    exact ⟨p, .tail _ hp, hb⟩
  | bottom => exact ⟨_, List.mem_cons_self, trivial⟩

end Nest

/-! ### The table meanwhile -/

theorem HoldsStrongly.reclaimed {table : StoreId} {w : World} (hw : HoldsStrongly table w)
    (since : ObjectId) : HoldsStrongly table (w.reclaimed since) := by
  unfold HoldsStrongly
  rw [World.stores_reclaimed]
  exact hw

/-- A table has a value under a path; if it holds it weakly, the value is older than the
object numbered `since`, and living. -/
structure Installed (table : StoreId) (path : List Key) (seen : Value) (since : ObjectId)
    (w : World) : Prop where
  entry : ∃ held, w.held? table path = some held ∧ held.value = seen ∧
    (held = .weak seen → ∀ id, seen.object? = some id → id < since ∧ w.heap.alive id = true)
  size : since ≤ w.heap.size

namespace Installed
variable {table : StoreId} {path : List Key} {seen : Value} {since : ObjectId} {w : World}

theorem stored? (hw : Installed table path seen since w) : w.stored? table path = some seen := by
  obtain ⟨held, hheld, rfl, hlive⟩ := hw.entry
  have halive : held.alive w.heap.alive = true := by
    cases held with
    | strong v => rfl
    | weak v => exact Heap.holds_iff.mpr fun id hid => (hlive rfl id hid).2
  rw [World.stored?_eq_held?, hheld]
  simp [Store.Stored.load, halive]

/-- An installed value stays where the entry is left alone and what is older lives. -/
theorem later (hw : Installed table path seen since w) {w' : World}
    (hheld : w'.held? table path = w.held? table path) (hsize : since ≤ w'.heap.size)
    (hlive : ∀ id, id < since → w.heap.alive id = true → w'.heap.alive id = true) :
    Installed table path seen since w' := by
  obtain ⟨held, hentry, hvalue, hweak⟩ := hw.entry
  refine ⟨⟨held, hheld.trans hentry, hvalue, fun h id hid => ?_⟩, hsize⟩
  obtain ⟨hlt, halive⟩ := hweak h id hid
  exact ⟨hlt, hlive id hlt halive⟩

/-- A value put under another path leaves the entry. -/
theorem storeSet_ne (hw : Installed table path seen since w) {other : List Key}
    (hne : other ≠ path) (v : Value) :
    Installed table path seen since (w.storeSet table other v) :=
  hw.later (World.held?_storeSet_ne (fun h => hne h.2) v w) hw.size fun _ _ h => h

theorem storeErase_ne (hw : Installed table path seen since w) {other : List Key}
    (hne : other ≠ path) : Installed table path seen since (w.storeErase table other) :=
  hw.later (World.held?_storeErase_ne (fun h => hne h.2) w) hw.size fun _ _ h => h

/-- What is made later may die. -/
theorem reclaimed (hw : Installed table path seen since w) {since' : ObjectId}
    (hlater : since ≤ since') : Installed table path seen since (w.reclaimed since') := by
  refine hw.later (World.held?_reclaimed ..) ?_ fun id hid halive => ?_
  · rw [World.size_reclaimed]
    exact hw.size
  · obtain ⟨o, ho⟩ := Heap.alive_iff.mp halive
    rw [Heap.alive_iff, World.object?_reclaimed, if_pos (.inl (Nat.lt_of_lt_of_le hid hlater))]
    exact ⟨o, ho⟩

/-- A bottom that goes into a table stays there while what it holds weakly lives. -/
theorem storeSet (hw : HoldsStrongly table w) (hsize : since ≤ w.heap.size) (hpath : path ≠ [])
    {b : Value} (howned : w.heap.reachesAny b (path.filterMap Key.object?) = false ∨
      ∀ id, b.object? = some id → id < since ∧ w.heap.alive id = true) :
    Installed table path b since (w.storeSet table path b) := by
  refine ⟨⟨_, hw.held?_storeSet hpath b, ?_, fun hweak => ?_⟩, hsize⟩
  · split <;> rfl
  · rcases howned with hfree | hlive
    · rw [if_neg (by simp [hfree])] at hweak
      cases hweak
    · exact hlive

end Installed

/-- What a run of one trait keeps: its table holds strongly, what was living at the start
lives, and the table has something for the arguments of each case that runs. -/
structure Memo.Shows (memo : Memo) (h₀ : Heap) (paths : List (List Key)) (w : World) : Prop where
  strong : HoldsStrongly memo.store w
  size : h₀.size ≤ w.heap.size
  elder : ∀ id, h₀.alive id = true → w.heap.alive id = true
  visible : ∀ path ∈ paths, ∃ seen, Installed memo.store path seen h₀.size w

namespace Memo.Shows
variable {memo : Memo} {h₀ : Heap} {paths : List (List Key)} {path : List Key} {w w' : World}

theorem later (hw : memo.Shows h₀ paths w) (hstores : w'.stores = w.stores)
    (hsize : w.heap.size ≤ w'.heap.size) (hlive : w.heap.Extends w'.heap) :
    memo.Shows h₀ paths w' := by
  have halive : ∀ id, w.heap.alive id = true → w'.heap.alive id = true := by
    intro id hid
    obtain ⟨o, ho⟩ := Heap.alive_iff.mp hid
    exact Heap.alive_iff.mpr ⟨o, hlive id o ho⟩
  refine ⟨?_, Nat.le_trans hw.size hsize, fun id hid => halive id (hw.elder id hid), fun p hp => ?_⟩
  · unfold HoldsStrongly
    rw [hstores]
    exact hw.strong
  · obtain ⟨seen, hseen⟩ := hw.visible p hp
    exact ⟨seen, hseen.later (World.held?_congr (by rw [hstores]) p)
      (Nat.le_trans hw.size hsize) fun id _ => halive id⟩

theorem nesting (hw : memo.Shows h₀ paths w) (n : Nesting) :
    memo.Shows h₀ paths {w with nesting := n} :=
  hw.later rfl (Nat.le_refl _) (.refl _)

/-- What the table has for a case that runs a call on its arguments finds. -/
theorem stored? (hw : memo.Shows h₀ paths w) (hpath : path ∈ paths) :
    (w.stored? memo.store path).isSome := by
  obtain ⟨seen, hseen⟩ := hw.visible path hpath
  rw [hseen.stored?]
  rfl

/-- A case begins: its bottom is in the table, and what was made for it may die. -/
theorem install (hw : memo.Shows h₀ paths w) {b : Value} {since : ObjectId} (hpath : path ≠ [])
    (hnew : path ∉ paths) (hsince : h₀.size ≤ since)
    (howned : w.heap.reachesAny b (path.filterMap Key.object?) = false ∨
      ∀ id, b.object? = some id → h₀.alive id = true) :
    memo.Shows h₀ (path :: paths) ((w.storeSet memo.store path b).reclaimed since) := by
  have hold : ∀ id, h₀.alive id = true → id < h₀.size := by
    intro id hid
    obtain ⟨o, ho⟩ := Heap.alive_iff.mp hid
    exact Heap.lt_size ho
  have howned' : w.heap.reachesAny b (path.filterMap Key.object?) = false ∨
      ∀ id, b.object? = some id → id < h₀.size ∧ w.heap.alive id = true :=
    howned.imp_right fun h id hid => ⟨hold id (h id hid), hw.elder id (h id hid)⟩
  have hstrong : HoldsStrongly memo.store (w.storeSet memo.store path b) :=
    hw.strong.updateStore _ _ fun _ _ => rfl
  refine ⟨hstrong.reclaimed since, ?_, fun id hid => ?_,
    List.forall_mem_cons.mpr ⟨?_, fun p hp => ?_⟩⟩
  · rw [World.size_reclaimed]
    exact hw.size
  · obtain ⟨o, ho⟩ := Heap.alive_iff.mp (hw.elder id hid)
    rw [Heap.alive_iff, World.object?_reclaimed,
      if_pos (.inl (Nat.lt_of_lt_of_le (hold id hid) hsince))]
    exact ⟨o, ho⟩
  · exact ⟨b, (Installed.storeSet hw.strong hw.size hpath howned').reclaimed hsince⟩
  · obtain ⟨seen, hseen⟩ := hw.visible p hp
    have hne : path ≠ p := fun h => hnew (h ▸ hp)
    exact ⟨seen, (hseen.storeSet_ne hne b).reclaimed hsince⟩

/-- A case ends, and the table has its result or nothing. -/
theorem close (hw : memo.Shows h₀ (path :: paths) w) (hnew : path ∉ paths) :
    (∀ v, memo.Shows h₀ paths (w.storeSet memo.store path v)) ∧
      memo.Shows h₀ paths (w.storeErase memo.store path) := by
  have hother : ∀ p ∈ paths, path ≠ p := fun p hp h => hnew (h ▸ hp)
  have hvisible := (List.forall_mem_cons.mp hw.visible).2
  refine ⟨fun v => ⟨hw.strong.updateStore _ _ fun _ _ => rfl, hw.size, hw.elder, fun p hp => ?_⟩,
    ⟨hw.strong.updateStore _ _ fun _ _ => rfl, hw.size, hw.elder, fun p hp => ?_⟩⟩
  · exact (hvisible p hp).imp fun seen hseen => hseen.storeSet_ne (hother p hp) v
  · exact (hvisible p hp).imp fun seen hseen => hseen.storeErase_ne (hother p hp)

end Memo.Shows

/-! ### Runs -/

/-- What goes on while the innermost call looks into the table. -/
def Control.Looks : Control → Prop
  | .lookUp .. | .answer _ => True
  | _ => False

namespace Moment

/-- Bottoms are computed without calls, and do not reach the arguments. -/
structure Apart (m : Moment) : Prop where
  calls : ∀ n u args, m.control = .call n u args → ∀ p ∈ m.stack, ¬p.IsBottom
  free : ∀ n memo t receiver args path since b rest, m.control = .answer (.ok b) →
    m.stack = .bottom n memo t receiver args path since :: rest →
    m.world.heap.reachesAny b (path.filterMap Key.object?) = false

/-- A moment of a run of one trait that calls itself through a table. -/
structure Nested (t : Trait) (memo : Memo) (h₀ : Heap) (passed : Set (List Key)) (m : Moment) :
    Prop where
  framed : m.Framed
  shows : memo.Shows h₀ (running m.stack) m.world
  nest : ∃ phase, Nest t memo passed h₀.size phase m.stack ∧
    (phase = .looking → m.control.Looks) ∧
    ∀ v, phase = .founding → memo.bottom = .value v →
      m.control = .answer (.ok v) ∧ ∃ p rest, m.stack = p :: rest ∧ p.IsBottom

/-- The bottom of the trait is there from the start, or computed apart from the call. -/
def Founded (memo : Memo) (h₀ : Heap) (m : Moment) : Prop :=
  (∃ v, memo.bottom = .value v ∧ h₀.holds v = true) ∨ m.Apart

namespace Nested
variable {t : Trait} {memo : Memo} {h₀ : Heap} {passed : Set (List Key)} {m : Moment}

theorem inside (hframed : m.Framed) (hshows : memo.Shows h₀ (running m.stack) m.world)
    (hnest : Nest t memo passed h₀.size .inside m.stack) : Nested t memo h₀ passed m :=
  ⟨hframed, hshows, .inside, hnest, fun h => (by cases h), fun _ h => (by cases h)⟩

theorem looking (hframed : m.Framed) (hshows : memo.Shows h₀ (running m.stack) m.world)
    (hnest : Nest t memo passed h₀.size .looking m.stack) (hlooks : m.control.Looks) :
    Nested t memo h₀ passed m :=
  ⟨hframed, hshows, .looking, hnest, fun _ => hlooks, fun _ h => (by cases h)⟩

/-- A bottom is there and the case begins. -/
theorem install {n : Nat} {receiver b : Value} {args : List Value} {path : List Key}
    {since : ObjectId} {stack : List Pending} {w : World}
    (hm : Nested t memo h₀ passed
      ⟨.answer (.ok b), .bottom n memo t receiver args path since :: stack, w⟩)
    (howned : w.heap.reachesAny b (path.filterMap Key.object?) = false ∨
      ∀ id, b.object? = some id → h₀.alive id = true) :
    Nested t memo h₀ passed
      ⟨.dispatch n t receiver args, .case memo path :: stack,
        (w.storeSet memo.store path b).reclaimed since⟩ := by
  have hframed := hm.framed.next
  obtain ⟨_, hshows, phase, hnest, _⟩ := hm
  cases hnest with
  | bottom hpath hnew hsince hcall =>
    exact inside hframed (hshows.install (Key.path_ok hpath).2 hnew hsince howned)
      (.case hpath hnew hcall)

/-- A call that looks into the table has its answer, or a miss waits for the bottom. -/
theorem next_looking {args : List Value} {segment : Bool} {stack : List Pending} {c : Control}
    {w : World} (hm : Nested t memo h₀ passed ⟨c, .call t args segment :: stack, w⟩)
    (hmemo : t.layer.memo? = some memo) :
    Nested t memo h₀ passed (next ⟨c, .call t args segment :: stack, w⟩) := by
  have hframed := hm.framed.next
  obtain ⟨hbefore, hshows, phase, hnest, hlooks, _⟩ := hm
  cases hnest with
  | call hpassed hinside =>
    have hcall : Nest t memo passed h₀.size .looking (.call t args segment :: stack) :=
      .call hpassed hinside
    have hstill : ∀ result, Framed ⟨.answer result, .call t args segment :: stack, w⟩ →
        Nested t memo h₀ passed ⟨.answer result, .call t args segment :: stack, w⟩ :=
      fun result hframed => looking hframed hshows hcall trivial
    cases c with
    | run | request | call | dispatch => exact (hlooks rfl).elim
    | answer result =>
      exact inside hframed (hshows.nesting _) hinside
    | lookUp n memo' t' receiver args' =>
      obtain ⟨hmemo', _, _, _, heq⟩ := hbefore.lookUp _ _ _ _ _ rfl
      cases heq
      cases hmemo.symm.trans hmemo'
      simp only [next, lookedUp] at hframed ⊢
      cases hpath : Key.path args with
      | error f =>
        simp only [hpath] at hframed ⊢
        exact hstill _ hframed
      | ok path =>
        simp only [hpath] at hframed ⊢
        cases hstored : w.stored? memo.store path with
        | some hit =>
          simp only [hstored] at hframed ⊢
          exact hstill _ hframed
        | none =>
          simp only [hstored] at hframed ⊢
          -- A case that runs on these arguments would have been found.
          have hnew : path ∉ running stack := by
            intro hrunning
            have hsome := hshows.stored? hrunning
            rw [hstored] at hsome
            cases hsome
          refine ⟨hframed, hshows, .founding, .bottom hpath hnew hshows.size hcall,
            fun h => (by cases h), fun v _ hv => ⟨?_, _, _, rfl, trivial⟩⟩
          simp only [hv, bottomed]

/-- A body goes on, or what it is the body of does. -/
theorem next_working {phase : Phase} (hm : Nested t memo h₀ passed m)
    (hnest : Nest t memo passed h₀.size phase m.stack) (hphase : phase ≠ .looking)
    (hmemo : t.layer.memo? = some memo)
    (hcompute : phase = .founding → ∀ v, memo.bottom ≠ .value v)
    (hcall : ∀ n u args, m.control = .call n u args →
      phase = .inside ∧ u = t ∧ ∀ path, Key.path args = .ok path → path ∈ passed)
    (hfree : phase = .founding → m.Apart) : Nested t memo h₀ passed m.next := by
  have hsame : ∀ {m' : Moment}, m'.Framed → memo.Shows h₀ (running m'.stack) m'.world →
      Nest t memo passed h₀.size phase m'.stack → Nested t memo h₀ passed m' :=
    fun hframed hshows hnest => ⟨hframed, hshows, phase, hnest, fun h => absurd h hphase,
      fun v h hv => absurd hv (hcompute h v)⟩
  have hframed := hm.framed.next
  have hchange := m.change
  generalize m.next = m' at hchange hframed
  obtain ⟨hbefore, hshows, _⟩ := hm
  cases hchange with
  | quiet hq => exact hsame hframed (hshows.later hq.stores hq.before.size hq.extends_) hnest
  | wait => exact hsame hframed hshows (.body hphase hnest)
  | @enter n u receiver rest stack w hroom =>
    obtain ⟨rfl, rfl, hpassed⟩ := hcall n u (receiver :: rest) rfl
    refine looking hframed (hshows.nesting _) (.call hpassed hnest) ?_
    simp only [body, hmemo]
    trivial
  | miss =>
    -- Only what is at the table looks into it.
    obtain ⟨_, _, _, _, rfl⟩ := hbefore.lookUp _ _ _ _ _ rfl
    cases hnest
    exact absurd rfl hphase
  | resume =>
    cases hnest with
    | body _ hnest => exact hsame hframed hshows hnest
  | leave =>
    cases hnest
    exact absurd rfl hphase
  | install =>
    cases hnest with
    | bottom hpath hnew hsince h =>
      have hapart := (hfree rfl).free _ _ _ _ _ _ _ _ _ rfl rfl
      exact inside hframed (hshows.install (Key.path_ok hpath).2 hnew hsince (.inl hapart))
        (.case hpath hnew h)
  | abandon =>
    cases hnest with
    | bottom _ _ _ h => exact looking hframed hshows h trivial
  | result =>
    cases hnest with
    | case hpath hnew h =>
      exact looking hframed ((hshows.close hnew).1 _) h trivial
  | failure =>
    cases hnest with
    | case hpath hnew h =>
      exact looking hframed (hshows.close hnew).2 h trivial

/-- Whoever calls is inside a case, or outside of all calls. -/
theorem inside_of_call (hm : Nested t memo h₀ passed m) (hfounded : m.Founded memo h₀) {n : Nat}
    {u : Trait} {args : List Value} (hcall : m.control = .call n u args) :
    Nest t memo passed h₀.size .inside m.stack := by
  obtain ⟨phase, hnest, hlooks, hvalue⟩ := hm.nest
  cases phase with
  | inside => exact hnest
  | looking =>
    have h := hlooks rfl
    rw [hcall] at h
    exact h.elim
  | founding =>
    rcases hfounded with ⟨v, hv, _⟩ | hapart
    · have h := (hvalue v rfl hv).1
      rw [hcall] at h
      cases h
    · obtain ⟨p, hp, hbottom⟩ := hnest.bottom_of_founding
      exact absurd hbottom (hapart.calls n u args hcall p hp)

/-- A step keeps the calls in each other: a case that begins is on arguments of its own. -/
theorem next (hm : Nested t memo h₀ passed m) (hmemo : t.layer.memo? = some memo)
    (hcall : ∀ n u args, m.control = .call n u args →
      u = t ∧ ∀ path, Key.path args = .ok path → path ∈ passed)
    (hfounded : m.Founded memo h₀) : Nested t memo h₀ passed m.next := by
  obtain ⟨phase, hnest, _, hvalue⟩ := hm.nest
  cases phase with
  | looking =>
    obtain ⟨c, stack, w⟩ := m
    cases hnest with
    | body hphase => exact absurd rfl hphase
    | call => exact hm.next_looking hmemo
  | inside =>
    exact hm.next_working hnest (by simp) hmemo (fun h => by cases h)
      (fun n u args h => ⟨rfl, hcall n u args h⟩) fun h => by cases h
  | founding =>
    cases hbottom : memo.bottom with
    | value v =>
      -- A fixed bottom is there at once.
      obtain ⟨hcontrol, p, rest, hstack, hp⟩ := hvalue v rfl hbottom
      obtain ⟨c, stack, w⟩ := m
      cases hcontrol
      cases hstack
      cases p with
      | body | call | case => exact hp.elim
      | bottom n memo' t' receiver args path since =>
        have howned : w.heap.reachesAny v (path.filterMap Key.object?) = false ∨
            ∀ id, v.object? = some id → h₀.alive id = true := by
          rcases hfounded with ⟨v', hv', hholds⟩ | hapart
          · cases hbottom.symm.trans hv'
            exact .inr (Heap.holds_iff.mp hholds)
          · exact .inl (hapart.free _ _ _ _ _ _ _ _ _ rfl rfl)
        cases hnest with
        | bottom => exact hm.install howned
    | compute handler =>
      have hapart : m.Apart := by
        refine hfounded.resolve_left ?_
        rintro ⟨v, hv, _⟩
        cases hbottom.symm.trans hv
      refine hm.next_working hnest (by simp) hmemo (fun _ v hv => by cases hbottom.symm.trans hv)
        (fun n u args h => ?_) fun _ => hapart
      obtain ⟨p, hp, hpending⟩ := hnest.bottom_of_founding
      exact absurd hpending (hapart.calls n u args h p hp)

end Nested

/-! ### Refusals -/

/-- A refusal is what something came to. -/
def Refuses (m : Moment) : Prop := ∃ f : Fault, f.IsLimit ∧ m.control = .answer (.error (.fault f))

/-- A body ends with a refusal. -/
def EndsRefused (m : Moment) : Prop :=
  ∃ n frame, ∃ f : Fault, f.IsLimit ∧ m.control = .run n frame (.done (.error f))

/-- No body makes a refusal up: where one ends with a refusal something came to one before. -/
def Sincere (run : Nat → Moment) : Prop := ∀ k, (run k).EndsRefused → ∃ j < k, (run j).Refuses

/-- A refusal comes of another one, of a body, or of a call for which there is no room. -/
theorem next_refuses {m : Moment} (h : m.next.Refuses) :
    m.Refuses ∨ m.EndsRefused ∨ ∃ n t receiver rest, m.control = .call n t (receiver :: rest) ∧
      t.layer.maxDepth ≤ m.world.nesting.current := by
  obtain ⟨f, ⟨name, limit, rfl⟩, h⟩ := h
  rcases next_error h with h | ⟨hstop, -⟩ | ⟨f, hstop, hfrom⟩
  · exact .inl ⟨_, ⟨name, limit, rfl⟩, h⟩
  · cases hstop
  · cases hstop
    rcases hfrom name limit rfl with ⟨n, frame, h⟩ | hfull
    · exact .inr (.inl ⟨n, frame, _, ⟨name, limit, rfl⟩, h⟩)
    · exact .inr (.inr hfull)

/-- The argument lists on which a run calls a trait; the same ones, which have the same keys,
are one. -/
def passed (t : Trait) (run : Nat → Moment) : Set (List Key) :=
  {path | ∃ k n args, (run k).control = .call n t args ∧ Key.path args = .ok path}

section Outermost
variable {n : Nat} {t : Trait} {memo : Memo} {args : List Value} {w₀ : World}
  (hmemo : t.layer.memo? = some memo) (hstrong : HoldsStrongly memo.store w₀)
  (hcalls : ∀ k m u args', (outermost n t args w₀ k).control = .call m u args' → u = t)
  (hfounded : ∀ k, (outermost n t args w₀ k).Founded memo w₀.heap)
include hmemo hstrong hcalls hfounded

theorem nested_outermost (k : Nat) :
    Nested t memo w₀.heap (passed t (outermost n t args w₀)) (outermost n t args w₀ k) := by
  induction k with
  | zero =>
    refine .inside ⟨fun _ _ _ _ _ h => (by cases h), trivial⟩ ?_ .nil
    exact ⟨hstrong, Nat.le_refl _, fun _ h => h, List.forall_mem_nil _⟩
  | succ k ih =>
    rw [outermost, after_succ']
    refine ih.next hmemo (fun m u args' h => ?_) (hfounded k)
    cases hcalls k m u args' h
    exact ⟨rfl, fun path hpath => ⟨k, m, args', h, hpath⟩⟩

/-- A call with room for one call more than there are arguments starts. -/
theorem current_lt (hstart : w₀.nesting = {})
    (hroom : (passed t (outermost n t args w₀)).encard + 1 ≤ t.layer.maxDepth) {k m : Nat}
    {args' : List Value} (hcall : (outermost n t args w₀ k).control = .call m t args') :
    (outermost n t args w₀ k).world.nesting.current < t.layer.maxDepth := by
  have hnest := (nested_outermost hmemo hstrong hcalls hfounded k).inside_of_call (hfounded k) hcall
  have hcurrent : (outermost n t args w₀ k).world.nesting.current =
      (running (outermost n t args w₀ k).stack).length :=
    ((counted_start (.call n t args) hstart).after k).current.trans hnest.active_eq
  have hle : (((running (outermost n t args w₀ k).stack).length + 1 : ℕ) : ℕ∞) ≤
      t.layer.maxDepth := by
    rw [Nat.cast_add, Nat.cast_one]
    exact (add_le_add_left hnest.length_le 1).trans hroom
  rw [hcurrent]
  exact Nat.cast_le.mp hle

end Outermost

/-- Where every call starts and no body makes a refusal up, there is none. -/
theorem not_refuses {n : Nat} {t : Trait} {args : List Value} {w₀ : World}
    (hcalls : ∀ k m u receiver rest,
      (outermost n t args w₀ k).control = .call m u (receiver :: rest) →
      (outermost n t args w₀ k).world.nesting.current < u.layer.maxDepth)
    (hbodies : Sincere (outermost n t args w₀)) (k : Nat) :
    ¬(outermost n t args w₀ k).Refuses := by
  induction k using Nat.strong_induction_on with
  | _ k ih =>
    intro hrefuses
    cases k with
    | zero =>
      obtain ⟨_, _, h⟩ := hrefuses
      cases h
    | succ k =>
      rw [outermost, after_succ'] at hrefuses
      rcases next_refuses hrefuses with h | h | ⟨m, u, receiver, rest, hcall, hfull⟩
      · exact ih k (Nat.lt_succ_self k) h
      · obtain ⟨j, hj, h⟩ := hbodies k h
        exact ih j (Nat.lt_succ_of_lt hj) h
      · exact absurd (hcalls k m u receiver rest hcall) (Nat.not_lt_of_le hfull)

end Moment

open Moment in
/-- **Memoized recursion is bounded by its arguments.** Let a trait be called through its
table outside of all calls, let no other trait be called on the way, and let its bottom be
a value that the trait has or one that is computed without calls and does not reach the
arguments. Then at every moment at most as many cases run as the trait is called on
different arguments, cyclic or not, and one call more is active at most. With room for
one call more than there are arguments none is refused, and unless a body makes it up the
outermost call does not end with a refusal. -/
theorem Trait.rounds_bounded {n : Nat} {t : Trait} {memo : Memo} {args : List Value} {w₀ : World}
    (hmemo : t.layer.memo? = some memo) (hstrong : HoldsStrongly memo.store w₀)
    (hstart : w₀.nesting = {})
    (hcalls : ∀ k m u args', (outermost n t args w₀ k).control = .call m u args' → u = t)
    (hbottom : (∃ v, memo.bottom = .value v ∧ w₀.heap.holds v = true) ∨
      ∀ k, (outermost n t args w₀ k).Apart) :
    (∀ k, ((running (outermost n t args w₀ k).stack).length : ℕ∞) ≤
        (passed t (outermost n t args w₀)).encard ∧
      active (outermost n t args w₀ k).stack ≤
        (running (outermost n t args w₀ k).stack).length + 1) ∧
    ((passed t (outermost n t args w₀)).encard + 1 ≤ t.layer.maxDepth →
      (∀ k m args', (outermost n t args w₀ k).control = .call m t args' →
        (outermost n t args w₀ k).world.nesting.current < t.layer.maxDepth) ∧
      (Sincere (outermost n t args w₀) →
        ∀ f : Fault, f.IsLimit → (t.call (perform n) args w₀).1 ≠ .error (.fault f))) := by
  have hfounded : ∀ k, (outermost n t args w₀ k).Founded memo w₀.heap := fun k =>
    hbottom.imp_right fun h => h k
  refine ⟨fun k => ?_, fun hroom => ?_⟩
  · obtain ⟨phase, hnest, _⟩ := (nested_outermost hmemo hstrong hcalls hfounded k).nest
    refine ⟨hnest.length_le, ?_⟩
    rw [hnest.active_eq]
    split <;> simp
  · have hlt : ∀ k m args', (outermost n t args w₀ k).control = .call m t args' →
        (outermost n t args w₀ k).world.nesting.current < t.layer.maxDepth :=
      fun k m args' => current_lt hmemo hstrong hcalls hfounded hstart hroom
    refine ⟨hlt, fun hbodies f hf hresult => ?_⟩
    have hnone := not_refuses (fun k m u receiver rest h => ?_) hbodies
    · obtain ⟨k, hk⟩ := answers (.call n t args) [] w₀
      refine hnone k ⟨f, hf, ?_⟩
      rw [outermost, hk]
      exact congrArg Control.answer hresult
    · cases hcalls k m u _ h
      exact hlt k m _ h

namespace Moment

/-! ### A ring -/

/-- A trait that follows nodes through a table, with room for two calls. -/
def roundabout : Trait :=
  ⟨⟨1, "end", none, [], some ⟨0, .value .null⟩, 2⟩,
    [⟨0, "end", none,
      [("Node", .handler (Expr.asCase (.recur [.field (.arg 0) "rest"])))], none, 2⟩]⟩

/-- A world with one node, whose rest is a knot that is tied to it. -/
def ring : World where
  heap := ⟨#[some (.lazy (.knot 0)),
    some (.content (.fields ⟨0, 0, "Node", ["rest"], 0⟩ [.lazy 0]))]⟩
  knots := #[some (.inst 1)]
  stores := #[⟨.strong, .nil⟩]

/-- The call on the node is over after 24 steps. -/
theorem ended_ring : ∃ w, outermost 5 roundabout [.inst 1] ring 24 = ended (.ok .null) w :=
  ⟨_, rfl⟩

/-- The node is the only argument, and no body fails. -/
theorem calls_ring (k : Nat) :
    (∀ m u args, (outermost 5 roundabout [.inst 1] ring k).control = .call m u args →
      u = roundabout ∧ args = [.inst 1]) ∧
    ∀ m frame f,
      (outermost 5 roundabout [.inst 1] ring k).control ≠ .run m frame (.done (.error f)) := by
  obtain ⟨w, hend⟩ := ended_ring
  refine forall_after (P := fun m => (∀ n u args, m.control = .call n u args →
    u = roundabout ∧ args = [.inst 1]) ∧ ∀ n frame f, m.control ≠ .run n frame (.done (.error f)))
    hend (fun k hk => ?_) k
  interval_cases k
  all_goals
    constructor
    · intro n u args h
      cases h <;> exact ⟨rfl, rfl⟩
    · intro n frame f h
      cases h

/-- Going round, one case runs at a time, and two calls are enough. -/
theorem roundabout_bounded :
    (∀ k, (running (outermost 5 roundabout [.inst 1] ring k).stack).length ≤ 1) ∧
      ∀ f : Fault, f.IsLimit →
        (roundabout.call (perform 5) [.inst 1] ring).1 ≠ .error (.fault f) := by
  have hpassed : (passed roundabout (outermost 5 roundabout [.inst 1] ring)).encard ≤ 1 := by
    rw [← Set.encard_singleton [Key.object 1]]
    refine Set.encard_le_encard ?_
    rintro path ⟨k, m, args, hcall, hpath⟩
    cases ((calls_ring k).1 m roundabout args hcall).2
    cases hpath
    rfl
  obtain ⟨hbound, hroom⟩ := @Trait.rounds_bounded 5 roundabout _ [.inst 1] ring rfl ⟨_, rfl, rfl⟩ rfl
    (fun k m u args' h => ((calls_ring k).1 m u args' h).1) (.inl ⟨.null, rfl, rfl⟩)
  refine ⟨fun k => Nat.cast_le.mp ((hbound k).1.trans hpassed), ?_⟩
  refine (hroom (add_le_add_left hpassed 1)).2 fun k => ?_
  rintro ⟨m, frame, f, _, hcontrol⟩
  exact absurd hcontrol ((calls_ring k).2 m frame f)

end Moment

end OpenVariants

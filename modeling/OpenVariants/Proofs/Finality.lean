import OpenVariants.Proofs.Course

/-! Nothing dead comes back.

A weak handle is a name, a knot or an entry of a store that does not keep its value
alive (`World.Handle`). Numbers of objects are given once, so when the value has died
the handle finds nothing from then on, whatever is made later. A knot is tied once, and
that is all it ever gives (`World.Gives`). Knots own nothing, so a cycle that leads
through one dies with the last name that reaches it. -/
namespace OpenVariants

namespace World

/-! ### Weak handles -/

/-- A value that something refers to without keeping it alive. -/
inductive Handle (w : World) (v : Value) : Prop
  | name (n : String) (h : w.binding? n = some (.weak v))
  | knot (k : KnotId) (h : w.knots[k]? = some (some v))
  | entry (id : StoreId) (path : List Key) (h : w.held? id path = some (.weak v))

/-- What a handle is for came to hand at some time. -/
theorem Fit.handle {w : World} (hw : w.Fit) {v : Value} (h : w.Handle v) : w.heap.Known v := by
  cases h with
  | name n h =>
    obtain ⟨l₁, l₂, hbindings, -⟩ := List.lookup_eq_some_iff.mp h
    exact hw.bindings (n, .weak v) (by rw [hbindings]; simp)
  | knot k h => exact hw.tables.knots k v h
  | entry id path h =>
    obtain ⟨s, hs, hheld⟩ := Option.bind_eq_some_iff.mp h
    exact hw.tables.stored id s hs path _ hheld

/-- What died stays dead. -/
theorem Since.dead {w w' : World} (h : w.Since w') {v : Value} (hv : w.heap.Known v)
    (hdead : w.heap.holds v = false) : w'.heap.holds v = false := by
  rw [← Bool.not_eq_true] at hdead ⊢
  exact fun hlive => hdead (h.before.holds_of_later (fun id hid => (hv id hid).1) hlive)

/-! ### Knots -/

/-- All that a knot tied to a value is good for: it cannot be tied again, and itself, any
lazy made from it and any field with such a lazy give the value as long as that lives,
and a fault of an unresolved field from then on. -/
structure Gives (w : World) (k : KnotId) (v : Value) : Prop where
  once : ∀ u, tie k u w = (.error (.fault (.construction .knotAlreadyTied)), w)
  target : w.knotTarget k =
    if w.heap.holds v then .ok v else .error (.construction (.unresolvedField none .dropped))
  forced : ∀ id, w.heap.object? id = some (.lazy (.knot k)) → performAll none (.force id) w =
    if w.heap.holds v then (.ok v, w)
    else (.error (.fault (.construction (.unresolvedField none .dropped))), w)
  read : ∀ inst tag values index id, w.heap.instance? (.inst inst) = some (tag, values) →
    values[index]? = some (.lazy id) → w.heap.object? id = some (.lazy (.knot k)) →
    performAll none (.read inst index) w =
      if w.heap.holds v then (.ok v, w)
      else (.error (.fault (.construction
        (.unresolvedField (some ⟨tag.name, (tag.fields[index]?).getD ""⟩) .dropped))), w)

/-- A lazy made from a knot gives what the knot is tied to. -/
theorem perform_force {w : World} {id : ObjectId} {k : KnotId}
    (ho : w.heap.object? id = some (.lazy (.knot k))) (n : Nat) :
    perform (n + 1) none (.force id) w = Run.lift (w.knotTarget k) w := by
  have hrun : perform (n + 1) none (.force id) w =
      (LazyBody.knot k).program.run (perform n) none w := by
    simp only [perform, answering, Run.bind_apply, Run.get_apply, ho]
  have hbody : (LazyBody.knot k).program.run (perform n) none w =
      (Program.lift (w.knotTarget k)).run (perform n) none w := rfl
  rw [hrun, hbody]
  cases w.knotTarget k with
  | ok v => rfl
  | error f => rfl

theorem gives_of_tied {w : World} {k : KnotId} {v : Value} (hk : w.knots[k]? = some (some v)) :
    w.Gives k v := by
  have htarget : w.knotTarget k =
      if w.heap.holds v then .ok v else .error (.construction (.unresolvedField none .dropped)) := by
    simp [knotTarget, hk]
  obtain ⟨n, hn⟩ : ∃ n, nestingBound = n + 2 := ⟨999999998, rfl⟩
  refine ⟨fun u => Run.tie_tied (by simp [hk]) u, htarget, fun id ho => ?_, ?_⟩
  · rw [performAll, hn, perform_force ho, htarget]
    cases w.heap.holds v <;> rfl
  · intro inst tag values index id hinst hvalue ho
    have hread : performAll none (.read inst index) w =
        Run.at ⟨tag.name, (tag.fields[index]?).getD ""⟩ (perform (n + 1) none (.force id)) w := by
      have hrun : performAll none (.read inst index) w = readAt (perform (n + 1)) inst index w := by
        rw [performAll, hn]
        rfl
      rw [hrun, readAt, Run.bind_apply, Run.get_apply]
      simp only [hinst, indexedRead, hvalue]
      rfl
    rw [hread, Run.at, perform_force ho, htarget]
    cases w.heap.holds v <;> rfl

/-! ### Owners -/

/-- A name keeps the object alive, or another object refers to it. Knots own nothing, nor
do the bodies of lazies. -/
inductive Owned (w : World) (id : ObjectId) : Prop
  | name (v : Value) (hv : v ∈ w.roots) (hid : v.object? = some id)
  | object (i : ObjectId) (o : Object) (v : Value) (ho : w.heap.object? i = some o)
      (hv : v ∈ o.children) (hid : v.object? = some id)

/-- What has an owner is living. -/
theorem Fit.alive_of_owned {w : World} (hw : w.Fit) {id : ObjectId} (h : w.Owned id) :
    w.heap.alive id = true := by
  cases h with
  | name v hv hid => exact Heap.holds_iff.mp (hw.roots v hv).holds id hid
  | object i o v ho hv hid => exact Heap.holds_iff.mp (hw.tables.heap i o ho v hv).1.holds id hid

/-- A settlement leaves just what a name strongly reaches, whatever knots lead there. -/
theorem Fit.alive_settled {w : World} (hw : w.Fit) (id : ObjectId) :
    w.settled.heap.alive id = true ↔ w.heap.alive id = true ∧ w.heap.Reached w.roots id :=
  Heap.alive_collect hw.tables.heap w.roots id

end World

namespace Session
open World Run

/-! ### Tying -/

/-- A step ties a knot to a value. -/
def Ties (s : Step) (w : World) (k : KnotId) (v : Value) : Prop :=
  ∃ name e w₁, s.command = .tie name e ∧ w.binding? name = some (.knot k) ∧
    evaluate e {w with log := []} = (.ok v, w₁) ∧ (step s w).1.outcome = .ok .nothing

/-- The command that ties a knot evaluates, then ties. -/
theorem execute_tie (quiet : Bool) {name : String} {e : Expr} {k : KnotId} {v : Value} {w w₁ : World}
    (hk : w.binding? name = some (.knot k)) (he : evaluate e w = (.ok v, w₁)) :
    execute quiet (.tie name e) w =
      match tie k v w₁ with
      | (.ok _, w) => (.ok (.nothing, none), w)
      | (.error stop, w) => (.error stop, w) := by
  have hrun : execute quiet (.tie name e) w =
      (do
        let k ← knotNamed name
        tie k (← evaluate e)
        only .nothing : Run (Reply × Option Binding)) w := rfl
  rw [hrun, bind_apply, knotNamed, lookUp_apply, hk]
  simp only [Option.bind_some, Binding.knot?, bind_apply, he]
  rcases tie k v w₁ with ⟨_ | _, w₂⟩ <;> rfl

/-- After it was tied, a knot is tied. -/
theorem Ties.tied {s : Step} {w : World} {k : KnotId} {v : Value} (h : Ties s w k v) :
    (step s w).2.knots[k]? = some (some v) := by
  obtain ⟨name, e, w₁, hs, hk, he, hok⟩ := h
  have hrun := execute_tie s.quiet (w := {w with log := []}) hk he
  rw [← hs] at hrun
  rw [step_eq, hrun] at hok ⊢
  by_cases hknot : w₁.knots[k]? = some none
  · have hlt : k < w₁.knots.size := (Array.getElem?_eq_some_iff.mp hknot).1
    rw [tie_untied hknot]
    simp only [named_none]
    change (w₁.knots.setIfInBounds k (some v))[k]? = _
    rw [Array.getElem?_setIfInBounds_self_of_lt hlt]
  · rw [tie_tied hknot] at hok
    cases hok

/-- A tied knot is not tied again. -/
theorem Reachable.not_ties {w : World} (hw : Reachable w) {k : KnotId} {v : Value}
    (hk : w.knots[k]? = some (some v)) (s : Step) (u : Value) : ¬ Ties s w k u := by
  rintro ⟨name, e, w₁, hs, hname, he, hok⟩
  -- The evaluation before it leaves the knot tied.
  obtain ⟨r, w₁', rs, hrun, -, -, ho, -⟩ :=
    steady_evaluate e _ w.registries (.refl {w with log := []}) hw.atRest.twin.unlogged
  rw [he] at hrun
  cases hrun
  have htied : w₁.knots[k]? = some (some v) := ho.knots k v hk
  have hexecute := execute_tie s.quiet (w := {w with log := []}) hname he
  rw [← hs, tie_tied (by simp [htied])] at hexecute
  rw [step_eq, hexecute] at hok
  cases hok

/-! ### Dead for good -/

/-- Between steps the living objects are those with an owner. -/
theorem Reachable.alive_iff_owned {w : World} (hw : Reachable w) (id : ObjectId) :
    w.heap.alive id = true ↔ w.Owned id := by
  refine ⟨fun hlive => ?_, hw.fit.alive_of_owned⟩
  rw [← hw.atRest.settled, hw.fit.alive_settled] at hlive
  cases hlive.2 with
  | root v _ hv hid => exact .name v hv hid
  | step i o v _ _ ho hv hid => exact .object i o v ho hv hid

/-- What no name strongly reaches at the end of a step is dead from then on. -/
theorem Reachable.dead_of_not_reached {w : World} (hw : Reachable w) {s : Step} {id : ObjectId}
    (hlt : id < (Session.unsettled s w).heap.size)
    (hreach : ¬ (Session.unsettled s w).heap.Reached (Session.unsettled s w).roots id)
    {w' : World} (hahead : Ahead (step s w).2 w') : w'.heap.alive id = false := by
  have hfit := (hw.unsettled s).2
  have hbefore := ((hw.next s).since_ahead hahead).before
  rw [step_settles] at hbefore
  have hsize : id < (Session.unsettled s w).settled.heap.size :=
    (Heap.size_collect _ _).symm ▸ hlt
  rw [← Bool.not_eq_true]
  intro hlive
  obtain ⟨o, ho⟩ := Heap.alive_iff.mp hlive
  have hlive' : (Session.unsettled s w).settled.heap.alive id = true :=
    Heap.alive_iff.mpr ⟨o, hbefore.object id o hsize ho⟩
  exact hreach ((hfit.alive_settled id).mp hlive').2

/-- What the name of a weak handle is asked for. -/
theorem execute_upgrade (quiet : Bool) {name : String} {v : Value} {w : World}
    (hname : w.binding? name = some (.weak v)) (hdead : w.heap.holds v = false) :
    execute quiet (.upgrade name) w = (.ok (.upgraded none (weakText? w v), none), w) := by
  have hrun : execute quiet (.upgrade name) w =
      (do
        let v ← lookUp "weak" name Binding.weak?
        let w ← get
        only (.upgraded (if w.heap.holds v then some (w.heap.tree v) else none) (weakText? w v)) :
          Run (Reply × Option Binding)) w := rfl
  rw [hrun, bind_apply, lookUp_apply, hname]
  simp only [Option.bind_some, Binding.weak?, bind_apply, get_apply, hdead]
  rfl

/-- What dead handles report in a later world: names give no value, knots tied to it
fault, and entries that were not written again give nothing. -/
structure Reports (w w' : World) (v : Value) : Prop where
  dead : w'.heap.holds v = false
  /-- What is in hand is something else, whatever its tag and fields. -/
  other : ∀ x, w'.heap.Proper x → x ≠ v
  names : ∀ n, w'.binding? n = some (.weak v) → ∀ quiet,
    execute quiet (.upgrade n) w' = (.ok (.upgraded none (weakText? w' v), none), w')
  knots : ∀ k, w.knots[k]? = some (some v) →
    w'.knotTarget k = .error (.construction (.unresolvedField none .dropped))
  entries : ∀ id path, w.held? id path = some (.weak v) →
    (∀ held, w'.held? id path = some held → w.held? id path = some held) →
    w'.stored? id path = none

/-- **Nothing dead comes back.** In every session a knot is tied once at most. From then
on it gives the value that it was tied to while that lives, and a fault once it has died,
and so does any lazy made from it and any field with such a lazy. When what a weak handle
is for has died, it stays dead, and all such handles report so, whatever is made later.
What is living has an owner, and no knot is one: when at the end of a step no name
strongly reaches any node of a structure, cyclic through knots or not, all of it is dead
from then on. -/
theorem Reachable.nothing_returns {w : World} (hw : Reachable w) :
    (∀ s k v, Ties s w k v →
      (∀ rest s' u, ¬ Ties s' (Session.after rest (step s w).2) k u) ∧
      ∀ w', Ahead (step s w).2 w' → w'.Gives k v) ∧
    (∀ v, w.Handle v → w.heap.holds v = false → ∀ w', Ahead w w' → Reports w w' v) ∧
    (∀ id, w.heap.alive id = true ↔ w.Owned id) ∧
    ∀ s (nodes : Set ObjectId),
      (∀ n ∈ nodes, n < (Session.unsettled s w).heap.size ∧
        ¬ (Session.unsettled s w).heap.Reached (Session.unsettled s w).roots n) →
      ∀ w', Ahead (step s w).2 w' → ∀ n ∈ nodes, w'.heap.alive n = false := by
  refine ⟨fun s k v hties => ⟨fun rest s' u => ?_, fun w' hahead => ?_⟩,
    fun v hhandle hdead w' hahead => ?_, hw.alive_iff_owned, fun s nodes hnodes w' hahead n hn => ?_⟩
  · exact ((hw.next s).after rest).not_ties (((hw.next s).since rest).knots k v hties.tied) s' u
  · exact gives_of_tied (((hw.next s).since_ahead hahead).knots k v hties.tied)
  · have hsince := hw.since_ahead hahead
    have hlost := hsince.dead (hw.fit.handle hhandle) hdead
    refine ⟨hlost, ?_, fun n hn quiet => execute_upgrade quiet hn hlost, fun k hk => ?_,
      fun id path hheld hsame => stored?_of_dead hlost fun held h => ?_⟩
    · rintro x hx rfl
      rw [hx.holds] at hlost
      cases hlost
    · rw [(gives_of_tied (hsince.knots k v hk)).target, hlost]
      rfl
    · rw [hsame held h] at hheld
      exact Option.some.inj hheld
  · exact hw.dead_of_not_reached (hnodes n hn).1 (hnodes n hn).2 hahead

def makeLink : Step :=
  {command := .eval (.new "Ring" "Link" [.named "next"]), as? := some "link"}

def dropLink : Step := {command := .drop "link"}

/-- A link whose next one is to come. -/
def openRing : List Step :=
  [{command := .declare "R" "Ring" none [⟨"Link", ["next"]⟩], as? := some "Ring"},
    {command := .knot, as? := some "knot"},
    {command := .eval (.knot "knot"), as? := some "next"},
    makeLink]

/-- It becomes its own next one. -/
def closeRing : Step := {command := .tie "knot" (.named "link")}

def ringOpen : World := after openRing (start {})

/-- Once closed the ring is not closed again. A link on the same lazy after the first
one died is another one. And with neither the lazy nor the link named both are gone,
though the link refers to the lazy and the lazy leads to the link. -/
theorem ring_stays_gone :
    (Ties closeRing ringOpen 0 (.inst 1) ∧ ¬ Ties closeRing (step closeRing ringOpen).2 0 (.inst 1) ∧
      (step closeRing ringOpen).2.Gives 0 (.inst 1)) ∧
    (∀ w, w = after [closeRing, {command := .weaken (.named "link"), as? := some "handle"},
        dropLink] ringOpen →
      w.Owned 0 ∧ (step makeLink w).2.binding? "link" = some (.value (.inst 2)) ∧
        Reports w (step makeLink w).2 (.inst 1)) ∧
    ∀ w, w = after [closeRing, {command := .drop "next"}] ringOpen →
      (w.heap.instance? (.inst 1)).map (·.2) = some [.lazy 0] ∧
        w.heap.object? 0 = some (.lazy (.knot 0)) ∧ w.knots[0]? = some (some (.inst 1)) ∧
        ∀ w', Ahead (step dropLink w).2 w' → ∀ n ∈ [0, 1], w'.heap.alive n = false := by
  have hopen : Reachable ringOpen := ⟨{}, openRing, rfl⟩
  refine ⟨?_, ?_, ?_⟩
  · have hties : Ties closeRing ringOpen 0 (.inst 1) :=
      ⟨"knot", .named "link", {ringOpen with log := []}, rfl, rfl, rfl, rfl⟩
    obtain ⟨honce, hgives⟩ := hopen.nothing_returns.1 _ _ _ hties
    exact ⟨hties, honce [] closeRing (.inst 1), hgives _ (ahead_after [] _)⟩
  · rintro w rfl
    obtain ⟨-, hreports, howned, -⟩ := (hopen.after _).nothing_returns
    exact ⟨(howned 0).mp rfl, rfl,
      hreports (.inst 1) (.name "handle" rfl) rfl _ (ahead_after [makeLink] _)⟩
  · rintro w rfl
    have hclosed := hopen.after [closeRing, {command := .drop "next"}]
    refine ⟨rfl, rfl, rfl, hclosed.nothing_returns.2.2.2 dropLink {n | n ∈ [0, 1]} ?_⟩
    have hroots : (Session.unsettled dropLink
      (Session.after [closeRing, {command := .drop "next"}] ringOpen)).roots = [] := rfl
    rw [hroots]
    intro n hn
    obtain rfl | rfl := List.mem_pair.mp hn
    · exact ⟨by decide, Heap.not_reached_nil⟩
    · exact ⟨by decide, Heap.not_reached_nil⟩

end Session

end OpenVariants

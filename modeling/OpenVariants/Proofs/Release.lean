import Mathlib.Data.List.Nodup
import OpenVariants.Heap.Release
import OpenVariants.Proofs.Reach

/-! What letting go of a reference lets die.

Every object counts the references to it: those held outside of the heap, those still to
be let go of, and those inside living objects. It is living as long as there are any
(`Tallied`). Each round keeps this (`Going.round`). When nothing is to be let go of any
more, the living objects are therefore the ones that the remaining references reach: the
newest of them can only be referred to from outside, the next one from there or from the
newest, and so on down (`Tallied.reached_of_alive`). A settlement, which goes through the
whole heap, leaves the same (`World.settled_unbind`). -/
namespace OpenVariants

/-- How many of the values refer to an object. -/
def naming (id : ObjectId) (values : List Value) : Nat :=
  values.countP (·.object? == some id)

theorem naming_cons (id : ObjectId) (v : Value) (values : List Value) :
    naming id (v :: values) = naming id values + if v.object? = some id then 1 else 0 := by
  simp [naming, List.countP_cons]

theorem naming_append (id : ObjectId) (values others : List Value) :
    naming id (values ++ others) = naming id values + naming id others :=
  List.countP_append

theorem naming_perm {values others : List Value} (hperm : values.Perm others) (id : ObjectId) :
    naming id values = naming id others :=
  hperm.countP_eq _

theorem naming_pos {id : ObjectId} {values : List Value} :
    0 < naming id values ↔ ∃ v ∈ values, v.object? = some id := by
  simp [naming, List.countP_pos_iff]

namespace Heap

theorem alive_without (h : Heap) (id i : ObjectId) :
    (h.without id).alive i = true ↔ i ≠ id ∧ h.alive i = true := by
  unfold alive
  rw [object?_without]
  split <;> simp_all

theorem mem_references {h : Heap} {v : Value} :
    v ∈ h.references ↔ ∃ id o, h.object? id = some o ∧ v ∈ o.children := by
  unfold references
  rw [List.mem_flatMap]
  constructor
  · rintro ⟨id, _, hv⟩
    cases ho : h.object? id with
    | none => simp [children, ho] at hv
    | some o => exact ⟨id, o, ho, by simpa [children, ho] using hv⟩
  · rintro ⟨id, o, ho, hv⟩
    exact ⟨id, List.mem_range.mpr (lt_size ho), by simpa [children, ho] using hv⟩

/-- The heap `h'` is what remains of `h` when some objects died. -/
structure Remains (h h' : Heap) : Prop where
  size : h'.size = h.size
  object : ∀ id o, h'.object? id = some o → h.object? id = some o

theorem Remains.refl (h : Heap) : h.Remains h := ⟨rfl, fun _ _ ho => ho⟩

theorem Remains.without {h h' : Heap} (hr : h.Remains h') (id : ObjectId) :
    h.Remains (h'.without id) := by
  refine ⟨(size_without h' id).trans hr.size, fun i o ho => ?_⟩
  rw [object?_without] at ho
  split at ho
  · cases ho
  · exact hr.object i o ho

end Heap

namespace Counted
variable {c : Counted} {h : Heap} {held : List Value} {v : Value} {id : ObjectId}

/-- Every object counts the references that are held and those inside living objects, and
is living as long as there are any. -/
structure Tallied (c : Counted) (held : List Value) : Prop where
  count : ∀ id, c.count id = naming id (held ++ c.heap.references)
  alive : ∀ id, c.heap.alive id = true ↔ 0 < c.count id

/-- An object that comes out is dead from then on. -/
theorem drop_some {c' : Counted} {o : Object} (hdrop : c.drop id = (some o, c')) :
    c.heap.object? id = some o ∧ c'.heap = c.heap.without id := by
  unfold drop at hdrop
  split at hdrop
  · obtain ⟨ho, rfl⟩ := Prod.mk.inj hdrop
    exact ⟨ho, rfl⟩
  · cases hdrop

theorem count_drop (c : Counted) (id i : ObjectId) :
    (c.drop id).2.count i = if i = id then c.count id - 1 else c.count i := by
  unfold drop
  split <;> rfl

theorem alive_drop (c : Counted) (id i : ObjectId) :
    (c.drop id).2.heap.alive i = true ↔ c.heap.alive i = true ∧ ¬(i = id ∧ c.count id = 1) := by
  unfold drop
  split
  · next hone => simp [Heap.alive_without, hone, and_comm]
  · next hmore => simp [hmore]

namespace Tallied

theorem perm {held' : List Value} (hc : c.Tallied held) (hperm : held.Perm held') :
    c.Tallied held' :=
  ⟨fun id => (hc.count id).trans (naming_perm (hperm.append_right _) id), hc.alive⟩

/-- Plain values count for nothing. -/
theorem plain (hc : c.Tallied (v :: held)) (hv : v.object? = none) : c.Tallied held := by
  refine ⟨fun id => ?_, hc.alive⟩
  rw [hc.count id, List.cons_append, naming_cons, hv]
  simp

/-- If no object comes out none has died. -/
theorem drop_none {c' : Counted} (hc : c.Tallied held) (hdrop : c.drop id = (none, c')) :
    c'.heap = c.heap := by
  unfold Counted.drop at hdrop
  split at hdrop
  · next hone =>
    obtain ⟨o, ho⟩ := Heap.alive_iff.mp ((hc.alive id).mpr (by omega))
    rw [ho] at hdrop
    cases hdrop
  · cases hdrop
    rfl

/-- What an object that dies referred to is to be let go of. -/
theorem drop (hc : c.Tallied (v :: held)) (hv : v.object? = some id) :
    (c.drop id).2.Tallied ((c.drop id).1.elim [] Object.children ++ held) := by
  have hsplit : ∀ i, c.count i =
      naming i ((c.drop id).1.elim [] Object.children ++ held ++ (c.drop id).2.heap.references) +
        if id = i then 1 else 0 := by
    intro i
    have hreferences := naming_perm (c.references_drop id) i
    rw [hc.count i, List.cons_append, naming_cons, hv]
    simp only [naming_append, Option.some.injEq] at hreferences ⊢
    omega
  refine ⟨fun i => ?_, fun i => ?_⟩
  · have := hsplit i
    rw [count_drop]
    split
    · next hi =>
      subst hi
      rw [if_pos rfl] at this
      omega
    · next hi => rwa [if_neg (Ne.symm hi), Nat.add_zero] at this
  · rw [alive_drop, hc.alive, count_drop]
    split
    · next hi =>
      subst hi
      simp only [true_and]
      omega
    · next hi => simp [hi]

/-- What is referred to is living. -/
theorem alive_of_mem (hc : c.Tallied held) (hv : v ∈ held ++ c.heap.references)
    (hid : v.object? = some id) : c.heap.alive id = true := by
  rw [hc.alive, hc.count]
  exact naming_pos.mpr ⟨v, hv, hid⟩

/-- What the values held reached at first is living. -/
theorem alive_of_reached (hc : c.Tallied held) (hremains : h.Remains c.heap)
    (hr : h.Reached held id) : c.heap.alive id = true := by
  induction hr with
  | root v id hv hid => exact hc.alive_of_mem (List.mem_append_left _ hv) hid
  | step i o v id _ ho hv hid ih =>
    obtain ⟨o', ho'⟩ := Heap.alive_iff.mp ih
    cases ho.symm.trans (hremains.object i o' ho')
    have hmem := Heap.mem_references.mpr ⟨i, o, ho', hv⟩
    exact hc.alive_of_mem (List.mem_append_right _ hmem) hid

/-- What is living is reached: what refers to it is held, or is inside a newer object. -/
theorem reached_of_alive (hs : h.Sound) (hc : c.Tallied held) (hremains : h.Remains c.heap)
    (halive : c.heap.alive id = true) : h.Reached held id := by
  induction hn : h.size - id using Nat.strongRecOn generalizing id with
  | ind n ih =>
    rw [hc.alive, hc.count] at halive
    obtain ⟨v, hv, hid⟩ := naming_pos.mp halive
    rcases List.mem_append.mp hv with hv | hv
    · exact .root v id hv hid
    · obtain ⟨i, o, ho, hv⟩ := Heap.mem_references.mp hv
      have ho' := hremains.object i o ho
      have hnewer := (hs i o ho' v hv).2 id hid
      have hfewer : h.size - i < n := by
        rw [← hn]
        exact Nat.sub_lt_sub_left (Nat.lt_trans hnewer (Heap.lt_size ho')) hnewer
      exact .step i o v id (ih _ hfewer (Heap.alive_iff.mpr ⟨o, ho⟩) rfl) ho' hv hid

/-- What is living is what a collection leaves. -/
theorem heap_eq_collect (hs : h.Sound) (hc : c.Tallied held) (hremains : h.Remains c.heap) :
    c.heap = h.collect held := by
  refine Heap.ext_object (hremains.size.trans (Heap.size_collect h held).symm) fun id => ?_
  rw [Heap.object?_collect]
  split
  · next hm =>
    have hr := ((Heap.marked_iff hs held id).mp hm).1
    obtain ⟨o, ho⟩ := Heap.alive_iff.mp (hc.alive_of_reached hremains hr)
    rw [ho, hremains.object id o ho]
  · next hm =>
    refine Option.eq_none_iff_forall_ne_some.mpr fun o ho => hm ?_
    have hr := hc.reached_of_alive hs hremains (Heap.alive_iff.mpr ⟨o, ho⟩)
    exact (Heap.marked_iff hs held id).mpr ⟨hr, Heap.lt_size (hremains.object id o ho)⟩

end Tallied

end Counted

namespace Release
variable {h : Heap} {remaining : List Value} {notes : List ObjectId} {r r' : Release}
  {note : Option ObjectId}

/-- A release under way: some objects of the heap have died so far, each once. -/
structure Going (h : Heap) (remaining : List Value) (notes : List ObjectId) (r : Release) :
    Prop where
  tallied : r.counted.Tallied (r.pending ++ remaining)
  remains : h.Remains r.counted.heap
  nodup : notes.Nodup
  died : ∀ id, id ∈ notes ↔ h.alive id = true ∧ r.counted.heap.alive id = false

namespace Going
variable {id : ObjectId} {o : Object}

/-- No object dies. -/
theorem none_dies (hr : Going h remaining notes r)
    (htallied : r'.counted.Tallied (r'.pending ++ remaining))
    (hheap : r'.counted.heap = r.counted.heap) : Going h remaining notes r' := by
  refine ⟨htallied, ?_, hr.nodup, fun id => ?_⟩
  · rw [hheap]
    exact hr.remains
  · rw [hheap]
    exact hr.died id

/-- One object dies. -/
theorem one_dies (hr : Going h remaining notes r)
    (htallied : r'.counted.Tallied (r'.pending ++ remaining))
    (ho : r.counted.heap.object? id = some o)
    (hheap : r'.counted.heap = r.counted.heap.without id) :
    Going h remaining (notes ++ [id]) r' := by
  have hnew : id ∉ notes := by
    rw [hr.died, Heap.alive_iff.mpr ⟨o, ho⟩]
    simp
  refine ⟨htallied, ?_, ?_, fun i => ?_⟩
  · rw [hheap]
    exact hr.remains.without id
  · rw [← List.concat_eq_append]
    exact hr.nodup.concat hnew
  · rw [List.mem_append, hr.died, List.mem_singleton, hheap]
    simp only [← Bool.not_eq_true, Heap.alive_without]
    by_cases hi : i = id
    · subst hi
      simp [Heap.alive_iff.mpr ⟨o, hr.remains.object i o ho⟩]
    · simp [hi]

theorem round (hr : Going h remaining notes r) (hround : r.round = .again note r') :
    Going h remaining (notes ++ note.toList) r' := by
  have htallied := hr.tallied
  unfold Release.round at hround
  split at hround
  · cases hround
  · cases hround
    rw [Option.toList_none, List.append_nil]
    exact hr.none_dies htallied rfl
  · next c loop v values stack =>
    have hv : c.Tallied (v :: (values ++ stack.flatMap Activation.values ++ remaining)) := htallied
    split at hround
    · next hplain =>
      cases hround
      rw [Option.toList_none, List.append_nil]
      exact hr.none_dies (hv.plain hplain) rfl
    · next id hid =>
      have hleft := hv.drop hid
      split at hround
      · next c' hdrop =>
        cases hround
        rw [hdrop] at hleft
        rw [Option.toList_none, List.append_nil]
        exact hr.none_dies hleft (hv.drop_none hdrop)
      · next o c' hdrop =>
        cases hround
        obtain ⟨ho, hheap⟩ := Counted.drop_some hdrop
        rw [hdrop] at hleft
        refine hr.one_dies (hleft.perm ?_) ho hheap
        have henter := (Activation.values_enter ⟨loop, values⟩ o).symm
        simpa [pending, List.append_assoc] using
          henter.append_right (stack.flatMap Activation.values ++ remaining)

end Going

theorem going_start {c : Counted} {gone : List Value} (hc : c.Tallied (gone ++ remaining)) :
    Going c.heap remaining [] (start c gone) where
  tallied := by simpa [pending, start] using hc
  remains := .refl c.heap
  nodup := List.nodup_nil
  died id := by simp [start]

/-- What is left when nothing is to be let go of any more. -/
structure Done (h : Heap) (remaining : List Value) (died : List ObjectId) (c : Counted) : Prop where
  tallied : c.Tallied remaining
  heap : c.heap = h.collect remaining
  nodup : died.Nodup
  died : ∀ id, id ∈ died ↔ h.alive id = true ∧ ¬h.Reached remaining id

theorem Going.done {c : Counted} (hs : h.Sound) (hr : Going h remaining notes r)
    (hround : r.round = .done c) : Done h remaining notes c := by
  obtain ⟨htallied, hremains, hnodup, hdied⟩ := hr
  unfold Release.round at hround
  split at hround
  · cases hround
    refine ⟨htallied, htallied.heap_eq_collect hs hremains, hnodup, fun id => ?_⟩
    rw [hdied, Bool.eq_false_iff]
    exact and_congr_right fun _ => not_congr
      ⟨htallied.reached_of_alive hs hremains, htallied.alive_of_reached hremains⟩
  · cases hround
  · split at hround
    · cases hround
    · split at hround <;> cases hround

/-- Letting go of references lets die what the others do not reach. -/
theorem run_start {c : Counted} {gone : List Value} (hs : c.heap.Sound)
    (hc : c.Tallied (gone ++ remaining)) :
    Done c.heap remaining (loop.notes (start c gone)) (loop.run (start c gone)) :=
  Loop.keeps (P := Going c.heap remaining)
    (Q := fun notes c' => Done c.heap remaining notes c')
    (fun _ _ _ _ hr hround => hr.round hround) (fun _ _ _ hr hround => hr.done hs hround)
    [] (start c gone) (going_start hc)

end Release

/-! ### Counts of a settled heap -/

/-- A heap with the counts that are right while some values are held. -/
def Heap.counted (h : Heap) (held : List Value) : Counted :=
  ⟨h, fun id => naming id (held ++ h.references)⟩

/-- A heap without garbage can be counted. -/
theorem Heap.Sound.tallied {h : Heap} (hs : h.Sound) {held : List Value}
    (hheld : ∀ v ∈ held, h.holds v = true)
    (hreached : ∀ id, h.alive id = true → h.Reached held id) : (h.counted held).Tallied held := by
  refine ⟨fun _ => rfl, fun id => ⟨fun halive => naming_pos.mpr ?_, fun hcount => ?_⟩⟩
  · cases hreached id halive with
    | root v id hv hid => exact ⟨v, List.mem_append_left _ hv, hid⟩
    | step i o v id _ ho hv hid =>
      exact ⟨v, List.mem_append_right _ (mem_references.mpr ⟨i, o, ho, hv⟩), hid⟩
  · obtain ⟨v, hv, hid⟩ := naming_pos.mp hcount
    refine holds_iff.mp ?_ id hid
    rcases List.mem_append.mp hv with hv | hv
    · exact hheld v hv
    · obtain ⟨i, o, ho, hv⟩ := mem_references.mp hv
      exact (hs i o ho v hv).1.holds

theorem Heap.Sound.tallied_collect {h : Heap} (hs : h.Sound) {held : List Value}
    (hheld : ∀ v ∈ held, h.Proper v) : ((h.collect held).counted held).Tallied held := by
  refine (hs.collect held).tallied (retains_collect hs held hheld).kept fun id halive => ?_
  exact ((alive_collect hs held id).mp halive).2.collect hs fun _ hv => hv

/-- The values that a name keeps alive. -/
def World.valuesOf (w : World) (name : String) : List Value :=
  (w.bindings.filter (·.1 == name)).flatMap fun (_, b) => w.bindingValues b

/-- The roots of a world are the values of one name and the roots without the name. -/
theorem World.roots_perm (w : World) (name : String) :
    w.roots.Perm (w.valuesOf name ++ (w.unbind name).roots) := by
  have hsplit := (List.filter_append_perm (fun b => b.1 == name) w.bindings).symm
  have hvalues := hsplit.flatMap_right fun (_, b) => w.bindingValues b
  rwa [List.flatMap_append] at hvalues

/-- The settlement of a world that has forgotten a name is letting go of its values. -/
theorem World.settled_unbind {w : World} (hs : w.heap.Sound)
    (hroots : ∀ v ∈ w.roots, w.heap.Proper v) (name : String) :
    (Release.loop.run (.start (w.settled.heap.counted w.roots) (w.valuesOf name))).heap =
      (w.settled.unbind name).settled.heap := by
  have htallied := (hs.tallied_collect hroots).perm (w.roots_perm name)
  exact (Release.run_start (hs.collect w.roots) htallied).heap

/-- **Letting go by counting lets die what is not reached any more.** In a heap whose
objects refer to older ones and count the references to them, letting go of some
references ends. Each object that the remaining ones do not reach dies, once, and no other
does, whatever is shared: what is left is the heap that a collection leaves, with counts
that are right for the remaining references. -/
theorem Counted.Tallied.release_collects {c : Counted} {gone remaining : List Value}
    (hs : c.heap.Sound) (hc : c.Tallied (gone ++ remaining)) :
    Release.loop.rounds (.start c gone) ≤ 2 * (gone.length + c.heap.references.length) + 1 ∧
    Release.Done c.heap remaining (Release.loop.notes (.start c gone))
      (Release.loop.run (.start c gone)) := by
  refine ⟨?_, Release.run_start hs hc⟩
  have hle : Release.loop.rounds (.start c gone) ≤
      2 * ((gone ++ []).length + c.heap.references.length) + 1 :=
    Loop.rounds_le_size (Release.start c gone)
  rwa [List.append_nil] at hle

/-- A variant of two fields. -/
def forked : Tag := ⟨0, 0, "Fork", ["left", "right"], 0⟩

/-- An empty list, an instance with it, a record of both, and an instance with the other
instance and the record. -/
def shared : Heap :=
  ⟨#[some (.content (.items [])), some (.content (.fields forked [.list 0, .int 1])),
    some (.content (.entries [("a", .inst 1), ("b", .list 0)])),
    some (.content (.fields forked [.inst 1, .record 2]))]⟩

theorem proper_shared : shared.Proper (.list 0) ∧ shared.Proper (.inst 1) ∧
    shared.Proper (.record 2) ∧ shared.Proper (.inst 3) :=
  ⟨Heap.proper_reference (o := .content (.items [])) rfl,
    Heap.proper_reference (o := .content (.fields forked [.list 0, .int 1])) rfl,
    Heap.proper_reference (o := .content (.entries [("a", .inst 1), ("b", .list 0)])) rfl,
    Heap.proper_reference (o := .content (.fields forked [.inst 1, .record 2])) rfl⟩

theorem sound_shared : shared.Sound := by
  obtain ⟨hlist, hinst, hrecord, _⟩ := proper_shared
  have hplain : shared.Proper (.int 1) := Heap.proper_of_plain rfl
  intro id o ho v hv
  match id, ho with
  | 0, ho =>
    cases ho
    cases hv
  | 1, ho | 2, ho | 3, ho =>
    cases ho
    rcases List.mem_pair.mp hv with rfl | rfl
    all_goals exact ⟨by assumption, fun c hc => by cases hc <;> decide⟩

/-- All but the empty list, which is held beside the last instance, dies with it. -/
theorem shared_collects :
    let c := (shared.collect [.inst 3, .list 0]).counted [.inst 3, .list 0]
    let start := Release.start c [.inst 3]
    c.heap.Sound ∧ c.Tallied ([.inst 3] ++ [.list 0]) ∧ Release.loop.notes start = [3, 2, 1] ∧
      Release.loop.rounds start ≤ 2 * ([Value.inst 3].length + c.heap.references.length) + 1 ∧
      Release.Done c.heap [.list 0] (Release.loop.notes start) (Release.loop.run start) := by
  intro c start
  have htallied : c.Tallied ([.inst 3] ++ [.list 0]) := by
    refine sound_shared.tallied_collect fun v hv => ?_
    rcases List.mem_pair.mp hv with rfl | rfl
    · exact proper_shared.2.2.2
    · exact proper_shared.1
  have hsound : c.heap.Sound := sound_shared.collect _
  exact ⟨hsound, htallied, by decide, htallied.release_collects hsound⟩

end OpenVariants

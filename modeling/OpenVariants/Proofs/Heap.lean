import OpenVariants.World

/-! Living objects.

Numbers are given once and an object refers to smaller numbers only, so one pass
over the heap marks a set of objects that is closed under references
(`marked_closed`). Whatever is released, by a settlement or after a bottom was
stored, then leaves a smaller heap that is closed again and has all that was to be
kept (`Retains`). -/
namespace OpenVariants

/-! ### Values that name objects -/

/-- The value that names an object. -/
def Object.reference (id : ObjectId) : Object → Value
  | .content (.items _) => .list id
  | .content (.entries _) => .record id
  | .content (.fields ..) => .inst id
  | .function label _ => .function id label
  | .lazy _ => .lazy id

@[simp] theorem Object.object?_reference (id : ObjectId) (o : Object) :
    (o.reference id).object? = some id := by
  unfold reference
  split <;> rfl

namespace Heap

/-- A value that may come to hand: it is plain, or names a living object as that
object is named. -/
def Proper (h : Heap) (v : Value) : Prop :=
  ∀ id, v.object? = some id → ∃ o, h.object? id = some o ∧ o.reference id = v

/-- A value that came to hand at some time: it is plain, or names an object made by
then, which may have died, as that object is named. -/
def Known (h : Heap) (v : Value) : Prop :=
  ∀ id, v.object? = some id → id < h.size ∧ ∀ o, h.object? id = some o → o.reference id = v

/-- Objects refer to living objects with smaller numbers, each by its name. -/
def Sound (h : Heap) : Prop :=
  ∀ id o, h.object? id = some o → ∀ v ∈ o.children, h.Proper v ∧ ∀ c, v.object? = some c → c < id

/-- What lives in `h` lives in `h'`. -/
def Extends (h h' : Heap) : Prop := ∀ id o, h.object? id = some o → h'.object? id = some o

/-- What has a number of `h` and lives in `h'` lived in `h`: no number is used twice
and nothing comes back. -/
structure Before (h h' : Heap) : Prop where
  size : h.size ≤ h'.size
  object : ∀ id o, id < h.size → h'.object? id = some o → h.object? id = some o

/-- The smaller heap `h'` is closed under references and has the values that are kept. -/
structure Retains (h h' : Heap) (kept : List Value) : Prop where
  size : h'.size = h.size
  object : ∀ id o, h'.object? id = some o → h.object? id = some o
  closed : ∀ id o, h'.object? id = some o → ∀ v ∈ o.children, h'.holds v
  kept : ∀ v ∈ kept, h'.holds v

theorem lt_size {h : Heap} {id : ObjectId} {o : Object} (ho : h.object? id = some o) :
    id < h.size := by
  unfold object? at ho
  cases hc : h.cells[id]? with
  | none => simp [hc] at ho
  | some cell => exact (Array.getElem?_eq_some_iff.mp hc).1

theorem alive_iff {h : Heap} {id : ObjectId} :
    h.alive id = true ↔ ∃ o, h.object? id = some o := by
  unfold alive
  exact Option.isSome_iff_exists

theorem holds_iff {h : Heap} {v : Value} :
    h.holds v = true ↔ ∀ id, v.object? = some id → h.alive id = true := by
  unfold holds
  cases v.object? <;> simp

theorem Proper.holds {h : Heap} {v : Value} (hv : h.Proper v) : h.holds v = true := by
  rw [holds_iff]
  intro id hid
  obtain ⟨o, ho, _⟩ := hv id hid
  exact alive_iff.mpr ⟨o, ho⟩

theorem proper_of_plain {h : Heap} {v : Value} (hv : v.object? = none) : h.Proper v := by
  intro id hid
  rw [hv] at hid
  cases hid

theorem proper_reference {h : Heap} {id : ObjectId} {o : Object} (ho : h.object? id = some o) :
    h.Proper (o.reference id) := by
  intro id' hid
  rw [Object.object?_reference] at hid
  cases hid
  exact ⟨o, ho, rfl⟩

/-- Two values in hand that name one object are one value. -/
theorem Proper.eq_of_object? {h : Heap} {v w : Value} (hv : h.Proper v) (hw : h.Proper w)
    {id : ObjectId} (hi : v.object? = some id) (hj : w.object? = some id) : v = w := by
  obtain ⟨o, ho, rfl⟩ := hv id hi
  obtain ⟨o', ho', rfl⟩ := hw id hj
  rw [ho] at ho'
  rw [Option.some.inj ho']

theorem Proper.lt_size {h : Heap} {v : Value} (hv : h.Proper v) {id : ObjectId}
    (hi : v.object? = some id) : id < h.size := by
  obtain ⟨o, ho, _⟩ := hv id hi
  exact Heap.lt_size ho

theorem Proper.extends {h h' : Heap} (he : h.Extends h') {v : Value} (hv : h.Proper v) :
    h'.Proper v := by
  intro id hid
  obtain ⟨o, ho, hr⟩ := hv id hid
  exact ⟨o, he id o ho, hr⟩

/-- What still lives is the object that it was. -/
theorem Before.object?_of_alive {h h' : Heap} (hb : h.Before h') {id : ObjectId} {o : Object}
    (ho : h.object? id = some o) (hl : h'.alive id = true) : h'.object? id = some o := by
  obtain ⟨o', ho'⟩ := alive_iff.mp hl
  rw [hb.object id o' (lt_size ho) ho'] at ho
  exact ho'.trans ho

/-- A value in hand stays one as long as its object lives. -/
theorem Proper.later {h h' : Heap} (hb : h.Before h') {v : Value} (hv : h.Proper v)
    (hl : h'.holds v = true) : h'.Proper v := by
  intro id hid
  obtain ⟨o, ho, hr⟩ := hv id hid
  exact ⟨o, hb.object?_of_alive ho (holds_iff.mp hl id hid), hr⟩

theorem Proper.known {h : Heap} {v : Value} (hv : h.Proper v) : h.Known v := by
  intro id hid
  obtain ⟨o, ho, hr⟩ := hv id hid
  refine ⟨Heap.lt_size ho, fun o' ho' => ?_⟩
  rw [ho] at ho'
  rw [← Option.some.inj ho', hr]

theorem Known.proper {h : Heap} {v : Value} (hv : h.Known v) (hl : h.holds v = true) :
    h.Proper v := by
  intro id hid
  obtain ⟨o, ho⟩ := alive_iff.mp (holds_iff.mp hl id hid)
  exact ⟨o, ho, (hv id hid).2 o ho⟩

theorem Known.later {h h' : Heap} (hb : h.Before h') {v : Value} (hv : h.Known v) :
    h'.Known v := by
  intro id hid
  obtain ⟨hlt, hr⟩ := hv id hid
  exact ⟨Nat.lt_of_lt_of_le hlt hb.size, fun o ho => hr o (hb.object id o hlt ho)⟩

/-- A value that came to hand earlier is the value in hand that names its object. -/
theorem Known.eq_of_object? {h : Heap} {v w : Value} (hv : h.Known v) (hw : h.Proper w)
    {id : ObjectId} (hi : v.object? = some id) (hj : w.object? = some id) : v = w := by
  obtain ⟨o, ho, rfl⟩ := hw id hj
  exact ((hv id hi).2 o ho).symm

theorem Extends.refl (h : Heap) : h.Extends h := fun _ _ ho => ho

theorem Extends.trans {a b c : Heap} (hab : a.Extends b) (hbc : b.Extends c) : a.Extends c :=
  fun id o ho => hbc id o (hab id o ho)

theorem Before.refl (h : Heap) : h.Before h := ⟨Nat.le_refl _, fun _ _ _ ho => ho⟩

theorem Before.trans {a b c : Heap} (hab : a.Before b) (hbc : b.Before c) : a.Before c where
  size := Nat.le_trans hab.size hbc.size
  object id o hid ho :=
    hab.object id o hid (hbc.object id o (Nat.lt_of_lt_of_le hid hab.size) ho)

/-- What was made by then and lives later lived then. -/
theorem Before.holds_of_later {h h' : Heap} (hb : h.Before h') {v : Value}
    (hv : ∀ id, v.object? = some id → id < h.size) (hl : h'.holds v = true) :
    h.holds v = true := by
  rw [holds_iff] at hl ⊢
  intro id hid
  obtain ⟨o, ho⟩ := alive_iff.mp (hl id hid)
  exact alive_iff.mpr ⟨o, hb.object id o (hv id hid) ho⟩

theorem Retains.before {h h' : Heap} {kept : List Value} (hr : h.Retains h' kept) : h.Before h' :=
  ⟨Nat.le_of_eq hr.size.symm, fun id o _ ho => hr.object id o ho⟩

theorem Sound.retains {h h' : Heap} {kept : List Value} (hs : h.Sound) (hr : h.Retains h' kept) :
    h'.Sound := by
  intro id o ho v hv
  obtain ⟨hp, hlt⟩ := hs id o (hr.object id o ho) v hv
  exact ⟨hp.later hr.before (hr.closed id o ho v hv), hlt⟩

/-! ### New objects -/

theorem size_push (h : Heap) (o : Object) : (h.push o).size = h.size + 1 := by
  simp [push, size]

theorem object?_push (h : Heap) (o : Object) (id : ObjectId) :
    (h.push o).object? id = if id = h.size then some o else h.object? id := by
  unfold push object? size
  rw [Array.getElem?_push]
  split <;> simp_all

theorem extends_push (h : Heap) (o : Object) : h.Extends (h.push o) := by
  intro id o' ho
  rw [object?_push, if_neg (Nat.ne_of_lt (lt_size ho))]
  exact ho

theorem before_push (h : Heap) (o : Object) : h.Before (h.push o) where
  size := by rw [size_push]; exact Nat.le_succ _
  object id o' hid ho := by
    rw [object?_push, if_neg (Nat.ne_of_lt hid)] at ho
    exact ho

theorem Sound.push {h : Heap} (hs : h.Sound) (o : Object) (ho : ∀ v ∈ o.children, h.Proper v) :
    (h.push o).Sound := by
  intro id o' ho' v hv
  rw [object?_push] at ho'
  by_cases hid : id = h.size
  · rw [if_pos hid] at ho'
    cases ho'
    refine ⟨(ho v hv).extends (extends_push h o), fun c hc => ?_⟩
    rw [hid]
    exact (ho v hv).lt_size hc
  · rw [if_neg hid] at ho'
    obtain ⟨hp, hlt⟩ := hs id o' ho' v hv
    exact ⟨hp.extends (extends_push h o), hlt⟩

/-! ### Marks -/

theorem mark_cons (marks : Marks) (v : Value) (rest : List Value) :
    mark marks (v :: rest) =
      mark (v.object?.elim marks fun id => marks.setIfInBounds id true) rest := by
  simp only [mark, List.foldl_cons]
  cases v.object? <;> rfl

theorem getD_mark (marks : Marks) (values : List Value) (id : ObjectId) :
    (mark marks values).getD id false = true ↔
      marks.getD id false = true ∨ id < marks.size ∧ ∃ v ∈ values, v.object? = some id := by
  induction values generalizing marks with
  | nil => simp [mark]
  | cons v rest ih =>
    rw [mark_cons, ih]
    cases hv : v.object? with
    | none => simp [hv]
    | some c =>
      simp only [Option.elim, Array.size_setIfInBounds, List.mem_cons, exists_eq_or_imp, hv,
        Option.some.injEq]
      by_cases hc : c = id
      · subst hc
        by_cases hlt : c < marks.size <;> simp [hlt]
      · simp [hc]

theorem size_mark (marks : Marks) (values : List Value) : (mark marks values).size = marks.size := by
  induction values generalizing marks with
  | nil => rfl
  | cons v rest ih =>
    rw [mark_cons, ih]
    cases v.object? <;> simp

theorem spread_mono (h : Heap) (n : Nat) (marks : Marks) (id : ObjectId)
    (hm : marks.getD id false = true) : (h.spread n marks).getD id false = true := by
  induction n generalizing marks with
  | zero => exact hm
  | succ n ih =>
    rw [spread]
    apply ih
    split
    · exact (getD_mark marks _ id).mpr (.inl hm)
    · exact hm

/-- Spreading from the first `n` objects reaches smaller numbers only. -/
theorem spread_of_le {h : Heap} (hs : h.Sound) (n : Nat) (marks : Marks) (id : ObjectId)
    (hid : n ≤ id) : (h.spread n marks).getD id false = marks.getD id false := by
  induction n generalizing marks with
  | zero => rfl
  | succ n ih =>
    rw [spread, ih _ (Nat.le_of_succ_le hid)]
    split
    · rw [Bool.eq_iff_iff, getD_mark]
      refine ⟨fun hm => hm.resolve_right ?_, .inl⟩
      rintro ⟨_, v, hv, hvid⟩
      unfold children at hv
      cases ho : h.object? n with
      | none => simp [ho] at hv
      | some o =>
        have hlt := (hs n o ho v (by simpa [ho] using hv)).2 id hvid
        exact Nat.lt_asymm hlt hid
    · rfl

/-- What a reached object among the first `n` refers to is reached. -/
theorem spread_closed {h : Heap} (hs : h.Sound) (n : Nat) (marks : Marks)
    (hsize : marks.size = h.size) {id c : ObjectId} {o : Object} {v : Value} (hid : id < n)
    (hm : (h.spread n marks).getD id false = true) (ho : h.object? id = some o)
    (hv : v ∈ o.children) (hc : v.object? = some c) :
    (h.spread n marks).getD c false = true := by
  induction n generalizing marks with
  | zero => exact absurd hid (Nat.not_lt_zero id)
  | succ n ih =>
    rw [spread] at hm ⊢
    by_cases hn : id = n
    · subst hn
      rw [spread_of_le hs id _ id (Nat.le_refl id)] at hm
      apply spread_mono
      have hid' : marks.getD id false = true := by
        split at hm
        · assumption
        · exact hm
      rw [if_pos hid', getD_mark]
      have hproper := (hs id o ho v hv).1
      refine .inr ⟨?_, v, ?_, hc⟩
      · rw [hsize]
        exact hproper.lt_size hc
      · simpa [children, ho] using hv
    · refine ih _ ?_ (Nat.lt_of_le_of_ne (Nat.le_of_lt_succ hid) hn) hm
      split
      · rw [size_mark, hsize]
      · exact hsize

/-- The marked objects are closed under references. -/
theorem marked_closed {h : Heap} (hs : h.Sound) (roots : List Value) {id c : ObjectId} {o : Object}
    {v : Value} (hm : (h.marked roots).getD id false = true) (ho : h.object? id = some o)
    (hv : v ∈ o.children) (hc : v.object? = some c) : (h.marked roots).getD c false = true := by
  apply spread_closed hs h.size _ _ (lt_size ho) hm ho hv hc
  rw [size_mark, Array.size_replicate]

/-- The roots are marked. -/
theorem marked_root {h : Heap} {roots : List Value} {v : Value} (hv : v ∈ roots) {id : ObjectId}
    (hid : v.object? = some id) (hlt : id < h.size) :
    (h.marked roots).getD id false = true := by
  apply spread_mono
  rw [getD_mark, Array.size_replicate]
  exact .inr ⟨hlt, v, hv, hid⟩

/-! ### Releasing -/

/-- A heap with the objects alone that a test admits. -/
theorem object?_filter (h : Heap) (keep : ObjectId → Bool) (id : ObjectId) :
    object? ⟨h.cells.mapIdx fun id cell => if keep id then cell else none⟩ id =
      if keep id then h.object? id else none := by
  unfold object?
  rw [Array.getElem?_mapIdx]
  cases h.cells[id]? <;> by_cases hk : keep id <;> simp [hk]

theorem retains_filter {h : Heap} (hs : h.Sound) (keep : ObjectId → Bool) (kept : List Value)
    (hclosed : ∀ id o v c, keep id = true → h.object? id = some o → v ∈ o.children →
      v.object? = some c → keep c = true)
    (hkept : ∀ v ∈ kept, h.Proper v ∧ ∀ id, v.object? = some id → keep id = true) :
    h.Retains ⟨h.cells.mapIdx fun id cell => if keep id then cell else none⟩ kept where
  size := by simp [size]
  object id o ho := by
    rw [object?_filter] at ho
    split at ho
    · exact ho
    · cases ho
  closed id o ho v hv := by
    rw [object?_filter] at ho
    split at ho
    · next hk =>
      rw [holds_iff]
      intro c hc
      obtain ⟨o', ho', _⟩ := (hs id o ho v hv).1 c hc
      rw [alive_iff, object?_filter, if_pos (hclosed id o v c hk ho hv hc)]
      exact ⟨o', ho'⟩
    · cases ho
  kept v hv := by
    obtain ⟨hp, hk⟩ := hkept v hv
    rw [holds_iff]
    intro id hid
    obtain ⟨o, ho, _⟩ := hp id hid
    rw [alive_iff, object?_filter, if_pos (hk id hid)]
    exact ⟨o, ho⟩

/-- A settlement retains its roots. -/
theorem retains_collect {h : Heap} (hs : h.Sound) (roots : List Value)
    (hroots : ∀ v ∈ roots, h.Proper v) : h.Retains (h.collect roots) roots := by
  apply retains_filter hs
  · intro id o v c hk ho hv hc
    exact marked_closed hs roots hk ho hv hc
  · intro v hv
    refine ⟨hroots v hv, fun id hid => marked_root hv hid ?_⟩
    exact (hroots v hv).lt_size hid

/-- Reclaiming what was made from a number on retains what is older and what the
owners name. -/
theorem retains_reclaim {h : Heap} (hs : h.Sound) (since : ObjectId) (owners kept : List Value)
    (hkept : ∀ v ∈ kept, h.Proper v ∧ ∀ id, v.object? = some id → id < since ∨ v ∈ owners) :
    h.Retains (h.reclaim since owners) kept := by
  apply retains_filter hs
  · intro id o v c hk ho hv hc
    have hlt := (hs id o ho v hv).2 c hc
    rw [Bool.or_eq_true, decide_eq_true_eq] at hk ⊢
    rcases hk with hk | hk
    · exact .inl (Nat.lt_trans hlt hk)
    · exact .inr (marked_closed hs owners hk ho hv hc)
  · intro v hv
    obtain ⟨hp, hk⟩ := hkept v hv
    refine ⟨hp, fun id hid => ?_⟩
    rw [Bool.or_eq_true, decide_eq_true_eq]
    exact (hk id hid).imp_right fun ho => marked_root ho hid (hp.lt_size hid)

end Heap

end OpenVariants

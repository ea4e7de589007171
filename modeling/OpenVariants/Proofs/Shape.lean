import OpenVariants.Proofs.Canonical

/-! Shapes of values.

The shape of a value is all there is to it up to sameness: its key, if that cannot die;
else the object with the shapes of its parts. An instance goes by its tag and the shapes
of its fields alone, any other object by its number too. In a canonical world two values
are the same exactly when they have one shape (`World.Canonical.same_iff_shape`). -/
namespace OpenVariants

/-- What an object is apart from the values it refers to. -/
inductive Head where
  | inst (tag : Tag)
  | items (id : ObjectId)
  | entries (id : ObjectId) (keys : List String)
  | function (id : ObjectId) (body : Expr)
  | lazy (id : ObjectId) (body : LazyBody)

def Object.head (id : ObjectId) : Object → Head
  | .content (.fields tag _) => .inst tag
  | .content (.items _) => .items id
  | .content (.entries entries) => .entries id (entries.map (·.1))
  | .function _ body => .function id body
  | .lazy body => .lazy id body

inductive Shape where
  | leaf (k : Key)
  | node (head : Head) (parts : List Shape)

namespace Shape

mutual

/-- A value has a shape. -/
def Shown (h : Heap) : Shape → Value → Prop
  | leaf k, v => Key.ofValue v = k ∧ k.object? = none
  | node head parts, v => ∃ id o, Key.ofValue v = .object id ∧ h.object? id = some o ∧
    o.head id = head ∧ AllShown h parts o.children

/-- Values have shapes, one by one. -/
def AllShown (h : Heap) : List Shape → List Value → Prop
  | [], [] => True
  | s :: shapes, v :: values => s.Shown h v ∧ AllShown h shapes values
  | _, _ => False

end

/-! ### Every value has one shape -/

mutual

theorem Shown.unique {h : Heap} {s s' : Shape} {v : Value} (hs : s.Shown h v)
    (hs' : s'.Shown h v) : s = s' := by
  cases s with
  | leaf k =>
    rw [Shown] at hs
    cases s' with
    | leaf k' =>
      rw [Shown] at hs'
      rw [← hs.1, ← hs'.1]
    | node head parts =>
      rw [Shown] at hs'
      obtain ⟨id, o, hk, _⟩ := hs'
      rw [← hs.1, hk] at hs
      cases hs.2
  | node head parts =>
    rw [Shown] at hs
    obtain ⟨id, o, hk, ho, hhead, hparts⟩ := hs
    cases s' with
    | leaf k' =>
      rw [Shown] at hs'
      rw [← hs'.1, hk] at hs'
      cases hs'.2
    | node head' parts' =>
      rw [Shown] at hs'
      obtain ⟨id', o', hk', ho', hhead', hparts'⟩ := hs'
      rw [hk] at hk'
      cases hk'
      rw [ho] at ho'
      cases ho'
      rw [← hhead, ← hhead', hparts.unique hparts']

theorem AllShown.unique {h : Heap} {shapes shapes' : List Shape} {values : List Value}
    (hs : AllShown h shapes values) (hs' : AllShown h shapes' values) : shapes = shapes' := by
  cases shapes with
  | nil =>
    cases values with
    | nil =>
      cases shapes' with
      | nil => rfl
      | cons => cases hs'
    | cons => cases hs
  | cons s shapes =>
    cases values with
    | nil => cases hs
    | cons v values =>
      cases shapes' with
      | nil => cases hs'
      | cons s' shapes' => rw [hs.1.unique hs'.1, hs.2.unique hs'.2]

end

/-- A shape goes by the key alone. -/
theorem Shown.congr {h : Heap} {s : Shape} {v v' : Value} (hs : s.Shown h v)
    (hk : Key.ofValue v = Key.ofValue v') : s.Shown h v' := by
  cases s with
  | leaf k =>
    rw [Shown] at hs ⊢
    rwa [← hk]
  | node head parts =>
    rw [Shown] at hs ⊢
    rwa [← hk]

theorem AllShown.congr {h : Heap} {shapes : List Shape} {values values' : List Value}
    (hs : AllShown h shapes values) (hk : values.map Key.ofValue = values'.map Key.ofValue) :
    AllShown h shapes values' := by
  induction shapes generalizing values values' with
  | nil =>
    cases values with
    | nil =>
      cases values' with
      | nil => trivial
      | cons => cases hk
    | cons => cases hs
  | cons s shapes ih =>
    cases values with
    | nil => cases hs
    | cons v values =>
      cases values' with
      | nil => cases hk
      | cons v' values' =>
        rw [List.map_cons, List.map_cons, List.cons.injEq] at hk
        exact ⟨hs.1.congr hk.1, ih hs.2 hk.2⟩

theorem exists_allShown {h : Heap} {values : List Value}
    (hv : ∀ v ∈ values, ∃ s : Shape, s.Shown h v) : ∃ shapes, AllShown h shapes values := by
  induction values with
  | nil => exact ⟨[], trivial⟩
  | cons v rest ih =>
    obtain ⟨s, hs⟩ := hv v List.mem_cons_self
    obtain ⟨shapes, hshapes⟩ := ih fun u hu => hv u (List.mem_cons_of_mem _ hu)
    exact ⟨s :: shapes, hs, hshapes⟩

/-- Every value in hand has a shape: an object refers to smaller numbers only. -/
theorem exists_shown {h : Heap} (hs : h.Sound) {v : Value} (hv : h.Proper v) :
    ∃ s : Shape, s.Shown h v := by
  have hbelow : ∀ n v, h.Proper v → (∀ id, v.object? = some id → id < n) →
      ∃ s : Shape, s.Shown h v := by
    intro n
    induction n with
    | zero =>
      intro v _ hlt
      refine ⟨.leaf (Key.ofValue v), rfl, ?_⟩
      refine Option.eq_none_iff_forall_ne_some.mpr fun id hid => ?_
      exact Nat.not_lt_zero id (hlt id (Heap.ofValue_eq_object (Key.object?_eq_some.mp hid)))
    | succ n ih =>
      intro v hv hlt
      cases hobject : (Key.ofValue v).object? with
      | none => exact ⟨.leaf (Key.ofValue v), rfl, hobject⟩
      | some id =>
        have hk := Key.object?_eq_some.mp hobject
        obtain ⟨o, ho, _⟩ := hv id (Heap.ofValue_eq_object hk)
        have hchildren : ∀ c ∈ o.children, ∃ s : Shape, s.Shown h c := by
          intro c hc
          obtain ⟨hp, hsmall⟩ := hs id o ho c hc
          refine ih c hp fun i hi => ?_
          exact Nat.lt_of_lt_of_le (hsmall i hi)
            (Nat.le_of_lt_succ (hlt id (Heap.ofValue_eq_object hk)))
        obtain ⟨parts, hparts⟩ := exists_allShown hchildren
        exact ⟨.node (o.head id) parts, id, o, hk, ho, rfl, hparts⟩
  exact hbelow h.size v hv fun id hid => hv.lt_size hid

/-! ### Shapes over time -/

mutual

/-- A value keeps its shape while it lives. -/
theorem Shown.later {h h' : Heap} (hb : h.Before h') (hs' : h'.Sound) {s : Shape} {v : Value}
    (hs : s.Shown h v) (hl : h'.holds v = true) : s.Shown h' v := by
  cases s with
  | leaf k => exact hs
  | node head parts =>
    rw [Shown] at hs ⊢
    obtain ⟨id, o, hk, ho, hhead, hparts⟩ := hs
    have ho' := hb.object?_of_alive ho (Heap.holds_iff.mp hl id (Heap.ofValue_eq_object hk))
    exact ⟨id, o, hk, ho', hhead, hparts.later hb hs' fun c hc => (hs' id o ho' c hc).1.holds⟩

theorem AllShown.later {h h' : Heap} (hb : h.Before h') (hs' : h'.Sound) {shapes : List Shape}
    {values : List Value} (hs : AllShown h shapes values) (hl : ∀ v ∈ values, h'.holds v = true) :
    AllShown h' shapes values := by
  cases shapes with
  | nil => cases values with
    | nil => trivial
    | cons => cases hs
  | cons s shapes => cases values with
    | nil => cases hs
    | cons v values =>
      rw [List.forall_mem_cons] at hl
      exact ⟨hs.1.later hb hs' hl.1, hs.2.later hb hs' hl.2⟩

end

mutual

/-- What was made by then had its shape then. -/
theorem Shown.earlier {h h' : Heap} (hb : h.Before h') (hs' : h.Sound) {s : Shape} {v : Value}
    (hs : s.Shown h' v) (hold : ∀ id, Key.ofValue v = .object id → id < h.size) : s.Shown h v := by
  cases s with
  | leaf k => exact hs
  | node head parts =>
    rw [Shown] at hs ⊢
    obtain ⟨id, o, hk, ho, hhead, hparts⟩ := hs
    have ho' := hb.object id o (hold id hk) ho
    refine ⟨id, o, hk, ho', hhead, hparts.earlier hb hs' fun c hc i hi => ?_⟩
    exact (hs' id o ho' c hc).1.lt_size (Heap.ofValue_eq_object hi)

theorem AllShown.earlier {h h' : Heap} (hb : h.Before h') (hs' : h.Sound) {shapes : List Shape}
    {values : List Value} (hs : AllShown h' shapes values)
    (hold : ∀ v ∈ values, ∀ id, Key.ofValue v = .object id → id < h.size) :
    AllShown h shapes values := by
  cases shapes with
  | nil => cases values with
    | nil => trivial
    | cons => cases hs
  | cons s shapes => cases values with
    | nil => cases hs
    | cons v values =>
      rw [List.forall_mem_cons] at hold
      exact ⟨hs.1.earlier hb hs' hold.1, hs.2.earlier hb hs' hold.2⟩

end

end Shape

/-! ### One shape, one value -/

namespace World.Canonical

variable {declared : List (RegistryId × Tag)} {w : World}

/-- Two objects with one head and the same parts are one object. -/
theorem eq_of_head (hc : w.Canonical declared) {i j : ObjectId} {o o' : Object}
    (hi : w.heap.object? i = some o) (hj : w.heap.object? j = some o')
    (hhead : o.head i = o'.head j)
    (hparts : o.children.map Key.ofValue = o'.children.map Key.ofValue) : i = j := by
  have hproper : ∀ v ∈ o.children, w.heap.Proper v := fun v hv => (hc.heap i o hi v hv).1
  have hproper' : ∀ v ∈ o'.children, w.heap.Proper v := fun v hv => (hc.heap j o' hj v hv).1
  have hsame : Value.AllSame o.children o'.children :=
    (Heap.allSame_iff hproper hproper').mpr hparts
  unfold Object.head at hhead
  split at hhead <;> split at hhead <;> try cases hhead
  · exact hc.eq_of_same hi hj rfl hsame
  · rfl
  · simp only [Head.entries.injEq] at hhead
    exact hhead.1
  · rfl
  · rfl

mutual

/-- What has one shape has one key. -/
theorem key_of_shown (hc : w.Canonical declared) {s : Shape} {v v' : Value}
    (hs : s.Shown w.heap v) (hs' : s.Shown w.heap v') : Key.ofValue v = Key.ofValue v' := by
  cases s with
  | leaf k =>
    rw [Shape.Shown] at hs hs'
    rw [hs.1, hs'.1]
  | node head parts =>
    rw [Shape.Shown] at hs hs'
    obtain ⟨i, o, hk, hi, hhead, hparts⟩ := hs
    obtain ⟨j, o', hk', hj, hhead', hparts'⟩ := hs'
    rw [hk, hk', hc.eq_of_head hi hj (hhead.trans hhead'.symm) (hc.keys_of_allShown hparts hparts')]

theorem keys_of_allShown (hc : w.Canonical declared) {shapes : List Shape}
    {values values' : List Value} (hs : Shape.AllShown w.heap shapes values)
    (hs' : Shape.AllShown w.heap shapes values') :
    values.map Key.ofValue = values'.map Key.ofValue := by
  cases shapes with
  | nil =>
    cases values with
    | nil =>
      cases values' with
      | nil => rfl
      | cons => cases hs'
    | cons => cases hs
  | cons s shapes =>
    cases values with
    | nil => cases hs
    | cons v values =>
      cases values' with
      | nil => cases hs'
      | cons v' values' =>
        rw [List.map_cons, List.map_cons, hc.key_of_shown hs.1 hs'.1, hc.keys_of_allShown hs.2 hs'.2]

end

/-- In a canonical world values are the same exactly when they have one shape. -/
theorem same_iff_shape (hc : w.Canonical declared) {s s' : Shape} {v v' : Value}
    (hv : w.heap.Proper v) (hv' : w.heap.Proper v') (hs : s.Shown w.heap v)
    (hs' : s'.Shown w.heap v') : v.same v' = true ↔ s = s' := by
  rw [Heap.same_iff_ofValue hv hv']
  exact ⟨fun hk => (hs.congr hk).unique hs', fun heq => hc.key_of_shown hs (heq ▸ hs')⟩

/-- What is the same has the same shape. -/
theorem shown_of_same (hc : w.Canonical declared) {s : Shape} {v v' : Value}
    (hv : w.heap.Proper v) (hv' : w.heap.Proper v') (hsame : v.same v' = true)
    (hs : s.Shown w.heap v') : s.Shown w.heap v := by
  obtain ⟨s', hs'⟩ := Shape.exists_shown hc.heap hv
  rw [← (hc.same_iff_shape hv hv' hs' hs).mp hsame]
  exact hs'

theorem allShown_of_allSame (hc : w.Canonical declared) {shapes : List Shape}
    {values values' : List Value} (hv : ∀ v ∈ values, w.heap.Proper v)
    (hv' : ∀ v ∈ values', w.heap.Proper v) (hsame : Value.AllSame values values')
    (hs : Shape.AllShown w.heap shapes values') : Shape.AllShown w.heap shapes values := by
  induction hsame generalizing shapes with
  | nil => exact hs
  | cons h _ ih =>
    rw [List.forall_mem_cons] at hv hv'
    cases shapes with
    | nil => cases hs
    | cons s shapes =>
      exact ⟨hc.shown_of_same hv.1 hv'.1 h hs.1, ih hv.2 hv'.2 hs.2⟩

end World.Canonical

end OpenVariants

import OpenVariants.Store.Level

/-! Tries as finite maps.

A trie is read path by path through `stored?`, and every operation is known by
what it does to that reading: an insertion and an erasure change the one path they
are given, interning is a look-up and then an insertion, and a purge takes away
exactly the paths with a dead key and the values that died.

A purge drops entries, so it is right only where no level has a key twice
(`Distinct`); every operation keeps it so. -/
namespace OpenVariants.Store.Level

/-! ### Entries of one level -/

theorem hasKey_eq (l : Level) (k : Key) : l.hasKey k = (l.under? k).isSome := by
  induction l with
  | nil => rfl
  | cons key value next rest _ ih =>
    by_cases h : key = k
    · simp [hasKey, under?, h]
    · simp [hasKey, under?, h, ih]

theorem under?_adjust (k k' : Key) (change : Entry → Entry) (l : Level) :
    (l.adjust k change).under? k' =
      if k' = k then (l.under? k).map change else l.under? k' := by
  induction l with
  | nil => simp [adjust, under?]
  | cons key value next rest _ ih =>
    by_cases hk : key = k
    · subst hk
      by_cases hk' : k' = key
      · simp [adjust, under?, hk']
      · simp [adjust, under?, hk', Ne.symm hk']
    · by_cases hk' : k' = k
      · subst hk'
        simp only [adjust, hk, if_false, under?, ih, if_true]
      · by_cases hkey : key = k'
        · simp [adjust, under?, hkey, hk']
        · simp only [adjust, hk, if_false, under?, hkey, ih, hk']

theorem under?_alter (k k' : Key) (change : Entry → Entry) (l : Level) :
    (l.alter k change).under? k' =
      if k' = k then some (change ((l.under? k).getD ⟨none, nil⟩)) else l.under? k' := by
  unfold alter
  rw [hasKey_eq]
  cases h : l.under? k with
  | some e => simp [under?_adjust, h]
  | none =>
    by_cases hk : k' = k
    · simp [under?, hk]
    · simp [under?, hk, Ne.symm hk]

/-- Only what a change does to the entry that is there matters. -/
theorem adjust_congr (k : Key) (f g : Entry → Entry) (l : Level)
    (h : ∀ e, l.under? k = some e → f e = g e) : l.adjust k f = l.adjust k g := by
  induction l with
  | nil => rfl
  | cons key value next rest _ ih =>
    by_cases hk : key = k
    · simp only [adjust, hk, if_true, h ⟨value, next⟩ (by simp [under?, hk])]
    · have hrest : rest.adjust k f = rest.adjust k g := by
        apply ih
        intro e he
        exact h e (by simpa [under?, hk] using he)
      simp only [adjust, hk, if_false, hrest]

/-! ### Paths -/

@[simp] theorem stored?_nil_path (l : Level) : l.stored? [] = none := by
  unfold stored?
  rfl

@[simp] theorem stored?_nil (path : List Key) : nil.stored? path = none := by
  cases path <;> simp [stored?, under?]

theorem stored?_cons (k : Key) (path : List Key) (l : Level) :
    l.stored? (k :: path) =
      (l.under? k).bind fun e => if path.isEmpty then e.value else e.next.stored? path := by
  rw [stored?]
  cases l.under? k <;> rfl

/-- An insertion stores at its path and nowhere else. -/
theorem stored?_insert (s : Stored) (path q : List Key) (l : Level) (hp : path ≠ []) :
    (l.insert s path).stored? q = if q = path then some s else l.stored? q := by
  induction path generalizing q l with
  | nil => exact absurd rfl hp
  | cons k path ih =>
    cases q with
    | nil => simp
    | cons k' q =>
      rw [insert, stored?_cons, stored?_cons, under?_alter]
      by_cases hk : k' = k
      · subst hk
        cases path with
        | nil =>
          cases q with
          | nil => simp
          | cons => cases l.under? k' <;> simp
        | cons k₂ path =>
          cases q with
          | nil => cases l.under? k' <;> simp
          | cons k₃ q =>
            have := ih (k₃ :: q) ((l.under? k').getD ⟨none, nil⟩).next (by simp)
            cases h : l.under? k' with
            | none => simpa [h] using this
            | some e => simpa [h] using this
      · simp [hk]

/-- An erasure takes away the value at its path and no other. -/
theorem stored?_erase (path q : List Key) (l : Level) :
    (l.erase path).stored? q = if q = path then none else l.stored? q := by
  induction path generalizing q l with
  | nil => cases q <;> simp [erase]
  | cons k path ih =>
    cases q with
    | nil => simp
    | cons k' q =>
      rw [erase, stored?_cons, stored?_cons, under?_adjust]
      by_cases hk : k' = k
      · subst hk
        cases l.under? k' with
        | none => simp
        | some e =>
          cases path with
          | nil => cases q <;> simp
          | cons k₂ path =>
            cases q with
            | nil => simp
            | cons k₃ q => simpa using ih (k₃ :: q) e.next
      · simp [hk]

theorem get?_cons (living : ObjectId → Bool) (k : Key) (path : List Key) (l : Level) :
    l.get? living (k :: path) =
      (l.under? k).bind fun e =>
        if path.isEmpty then e.value.bind (·.load living) else e.next.get? living path := by
  rw [get?, stored?_cons]
  cases l.under? k with
  | none => rfl
  | some e =>
    by_cases h : path.isEmpty <;> simp [h, get?]

/-- Interning looks the path up, and inserts if nothing living is there. -/
theorem intern_eq (living : ObjectId → Bool) (s : Stored) (path : List Key) (l : Level)
    (hp : path ≠ []) :
    l.intern living s path =
      match l.get? living path with
      | some v => (some v, l)
      | none => (none, l.insert s path) := by
  induction path generalizing l with
  | nil => exact absurd rfl hp
  | cons k path ih =>
    rw [intern, insert, get?_cons, alter, hasKey_eq]
    cases he : l.under? k with
    | none =>
      cases path with
      | nil => rfl
      | cons => rfl
    | some e =>
      cases path with
      | nil => cases hv : e.value.bind (·.load living) <;> simp [hv]
      | cons k₂ path =>
        have hrec := ih e.next (by simp)
        cases hg : e.next.get? living (k₂ :: path) with
        | some v => simp [hg, hrec]
        | none =>
          simp only [List.isEmpty_cons, Bool.false_eq_true, if_false, hrec, hg,
            Option.bind_some, Option.isSome_some, if_true, Prod.mk.injEq, true_and]
          apply adjust_congr
          intro e' he'
          rw [he] at he'
          rw [Option.some.inj he']

/-! ### Levels without a key twice -/

/-- No level of the trie has a key twice. -/
def Distinct : Level → Prop
  | nil => True
  | cons key _ next rest => rest.under? key = none ∧ next.Distinct ∧ rest.Distinct

theorem Distinct.next {l : Level} (hl : l.Distinct) {k : Key} {e : Entry}
    (h : l.under? k = some e) : e.next.Distinct := by
  induction l with
  | nil => simp [under?] at h
  | cons key value next rest _ ih =>
    obtain ⟨_, hnext, hrest⟩ := hl
    by_cases hk : key = k
    · simp only [under?, hk, if_true, Option.some.injEq] at h
      rw [← h]
      exact hnext
    · simp only [under?, hk, if_false] at h
      exact ih hrest h

theorem Distinct.adjust {l : Level} (hl : l.Distinct) (k : Key) (change : Entry → Entry)
    (hc : ∀ e, l.under? k = some e → (change e).next.Distinct) : (l.adjust k change).Distinct := by
  induction l with
  | nil => trivial
  | cons key value next rest _ ih =>
    obtain ⟨hkey, hnext, hrest⟩ := hl
    by_cases hk : key = k
    · simp only [Level.adjust, hk, if_true]
      exact ⟨hk ▸ hkey, hc _ (by simp [under?, hk]), hrest⟩
    · simp only [Level.adjust, hk, if_false]
      refine ⟨?_, hnext, ih hrest fun e he => hc e (by simpa [under?, hk] using he)⟩
      rw [under?_adjust, if_neg hk]
      exact hkey

theorem Distinct.alter {l : Level} (hl : l.Distinct) (k : Key) (change : Entry → Entry)
    (hc : ∀ e, e.next.Distinct → (change e).next.Distinct) : (l.alter k change).Distinct := by
  unfold Level.alter
  rw [hasKey_eq]
  cases h : l.under? k with
  | some e => exact hl.adjust k change fun e' he => hc e' (hl.next he)
  | none => exact ⟨h, hc _ trivial, hl⟩

theorem Distinct.insert {l : Level} (hl : l.Distinct) (s : Stored) (path : List Key) :
    (l.insert s path).Distinct := by
  induction path generalizing l with
  | nil => exact hl
  | cons k path ih =>
    apply hl.alter
    intro e he
    by_cases hp : path.isEmpty
    · simpa [hp] using he
    · simpa [hp] using ih he

theorem Distinct.erase {l : Level} (hl : l.Distinct) (path : List Key) :
    (l.erase path).Distinct := by
  induction path generalizing l with
  | nil => exact hl
  | cons k path ih =>
    apply hl.adjust
    intro e he
    by_cases hp : path.isEmpty
    · simpa [hp] using hl.next he
    · simpa [hp] using ih (hl.next he)

/-! ### Purging -/

section Purging
variable (living : ObjectId → Bool)

theorem isEmpty_eq_true {l : Level} : l.isEmpty = true ↔ l = nil := by
  cases l <;> simp [isEmpty]

/-- What a purge leaves under one key. -/
def purgedEntry (e : Entry) : Option Entry :=
  let value := e.value.filter (·.alive living)
  let next := e.next.purged living
  if value.isNone && next.isEmpty then none else some ⟨value, next⟩

theorem under?_purged_none {l : Level} {k : Key} (h : l.under? k = none) :
    (l.purged living).under? k = none := by
  induction l with
  | nil => rfl
  | cons key value next rest _ ih =>
    by_cases hk : key = k
    · simp [under?, hk] at h
    · have hrest := ih (by simpa [under?, hk] using h)
      simp only [purged]
      split
      · split
        · exact hrest
        · simp only [under?, hk, if_false, hrest]
      · exact hrest

theorem under?_purged {l : Level} (hl : l.Distinct) (k : Key) :
    (l.purged living).under? k =
      if k.alive living then (l.under? k).bind (purgedEntry living) else none := by
  induction l with
  | nil => simp [purged, under?]
  | cons key value next rest _ ih =>
    obtain ⟨hkey, hnext, hrest⟩ := hl
    have hgone := under?_purged_none living hkey
    by_cases hk : key = k
    · subst hk
      simp only [purged, under?, if_true]
      by_cases ha : key.alive living
      · simp only [ha, if_true, Option.bind_some, purgedEntry]
        split
        · exact hgone
        · simp [under?]
      · simp only [ha, Bool.false_eq_true, if_false, hgone]
    · have := ih hrest
      simp only [purged, under?, hk, if_false]
      split
      · split
        · exact this
        · simp only [under?, hk, if_false, this]
      · exact this

/-- A purge takes away the paths with a dead key and the values that died. -/
theorem stored?_purged {l : Level} (hl : l.Distinct) (path : List Key) :
    (l.purged living).stored? path =
      if path.all (·.alive living) then (l.stored? path).filter (·.alive living) else none := by
  induction path generalizing l with
  | nil => simp
  | cons k path ih =>
    rw [stored?_cons, stored?_cons, under?_purged living hl]
    by_cases hk : k.alive living
    · cases he : l.under? k with
      | none => simp
      | some e =>
        have hrec := ih (hl.next he)
        simp only [hk, if_true, Option.bind_some, purgedEntry, List.all_cons, Bool.true_and]
        cases path with
        | nil =>
          by_cases hv : (e.value.filter (·.alive living)).isNone
          · have hnone := Option.isNone_iff_eq_none.mp hv
            simp only [hnone]
            split <;> simp [hnone]
          · simp [hv]
        | cons k₂ path =>
          simp only [List.isEmpty_cons, Bool.false_eq_true, if_false]
          rw [← hrec]
          split
          · next h =>
            rw [isEmpty_eq_true.mp (Bool.and_eq_true_iff.mp h).2]
            simp
          · rfl
    · simp [hk]

theorem Distinct.purged {l : Level} (hl : l.Distinct) : (l.purged living).Distinct := by
  induction l with
  | nil => trivial
  | cons key value next rest ihn ihr =>
    obtain ⟨hkey, hnext, hrest⟩ := hl
    simp only [Level.purged]
    split
    · split
      · exact ihr hrest
      · exact ⟨under?_purged_none living hkey, ihn hnext, ihr hrest⟩
    · exact ihr hrest

end Purging

/-! ### What is held -/

theorem mem_strongValues_of_under? {l : Level} {k : Key} {e : Entry} {v : Value}
    (h : l.under? k = some e)
    (hv : e.value = some (.strong v) ∨ v ∈ e.next.strongValues) : v ∈ l.strongValues := by
  induction l with
  | nil => simp [under?] at h
  | cons key value next rest _ ih =>
    simp only [strongValues, List.mem_append]
    by_cases hk : key = k
    · simp only [under?, hk, if_true, Option.some.injEq] at h
      subst h
      rcases hv with hv | hv
      · simp only at hv
        exact .inl (.inl (by simp [hv, Stored.strong?]))
      · exact .inl (.inr hv)
    · exact .inr (ih (by simpa [under?, hk] using h))

/-- A value stored strongly under some path is among those held strongly. -/
theorem mem_strongValues {l : Level} {path : List Key} {v : Value}
    (h : l.stored? path = some (.strong v)) : v ∈ l.strongValues := by
  induction path generalizing l with
  | nil => simp at h
  | cons k path ih =>
    rw [stored?_cons] at h
    obtain ⟨e, he, hv⟩ := Option.bind_eq_some_iff.mp h
    cases path with
    | nil => exact mem_strongValues_of_under? he (.inl (by simpa using hv))
    | cons => exact mem_strongValues_of_under? he (.inr (ih (by simpa using hv)))

end OpenVariants.Store.Level

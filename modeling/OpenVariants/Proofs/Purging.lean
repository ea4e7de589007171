import OpenVariants.Proofs.Entries

/-! What a purge releases and what it leaves.

Three rules take entries away: a dead key goes with everything below it, dead or alive;
under a living key a value that died goes; and an entry left with neither a value nor a
level below goes too. What is left is trim (`Trim`): no slot could go any more, so another
purge under the same deaths changes nothing (`purged_purged`).

Counted by entries the three rules are one: what goes is exactly what was not living, so
the number that a purge gives and the counts before and after fit together
(`accounts_purged`). -/
namespace OpenVariants.Store.Level

variable (living : ObjectId → Bool)

/-! ### Slots that stay -/

/-- Every slot, at any depth, has a living key, and holds a living value or has a level
below that is not empty; no slot holds a dead value. -/
def Trim : Level → Prop
  | nil => True
  | cons key value next rest =>
    key.alive living = true ∧ (∀ s, value = some s → s.alive living = true) ∧
      (value.isSome ∨ next ≠ nil) ∧ next.Trim ∧ rest.Trim

variable {living}

/-- A purge leaves slots that stay. -/
theorem trim_purged (l : Level) : (l.purged living).Trim living := by
  induction l with
  | nil => trivial
  | cons key value next rest ihn ihr =>
    rw [purged]
    by_cases hk : key.alive living
    · simp only [hk, if_true]
      split
      · exact ihr
      · next hslot =>
        rw [Bool.and_eq_true, isEmpty_eq_true, not_and_or] at hslot
        refine ⟨hk, fun s hs => (Option.filter_eq_some_iff.mp hs).2, ?_, ihn, ihr⟩
        refine hslot.imp_left fun h => Option.isSome_iff_ne_none.mpr fun hnone => ?_
        exact h (Option.isNone_iff_eq_none.mpr hnone)
    · simp only [hk, Bool.false_eq_true, if_false]
      exact ihr

/-- Slots that stay are left as they are. -/
theorem Trim.purged_eq {l : Level} (hl : l.Trim living) : l.purged living = l := by
  induction l with
  | nil => rfl
  | cons key value next rest ihn ihr =>
    obtain ⟨hk, hvalue, hslot, hnext, hrest⟩ := hl
    have hfilter : value.filter (·.alive living) = value := by
      cases value with
      | none => rfl
      | some s => simp [hvalue s rfl]
    have hstays : (value.isNone && next.isEmpty) = false := by
      rw [Bool.and_eq_false_iff, ← Bool.not_eq_true next.isEmpty, isEmpty_eq_true]
      exact hslot.imp_left fun h => by simpa using h
    simp only [purged, ihn hnext, ihr hrest, hk, if_true, hfilter, hstays, Bool.false_eq_true,
      if_false]

/-- From slots that stay nothing is released. -/
theorem Trim.released_eq {l : Level} (hl : l.Trim living) : l.released living = 0 := by
  have h := Level.released_eq living l
  rw [← entries_purged, hl.purged_eq] at h
  exact Nat.add_eq_right.mp h

/-- What a purge left it leaves again. -/
theorem purged_purged (l : Level) : (l.purged living).purged living = l.purged living :=
  (trim_purged l).purged_eq

/-! ### What is read after a purge -/

/-- A purge is not noticed under keys that can still be presented. -/
theorem get?_purged {l : Level} (hl : l.Distinct) {path : List Key}
    (hpath : path.all (·.alive living) = true) :
    (l.purged living).get? living path = l.get? living path := by
  unfold get?
  rw [stored?_purged living hl, if_pos hpath]
  cases l.stored? path with
  | none => rfl
  | some s => by_cases hs : s.alive living <;> simp [Option.filter, Stored.load, hs]

/-! ### The account -/

variable (living) in
/-- A trie purged to another one, with the number of values released. -/
structure Accounts (l l' : Level) (released : Nat) : Prop where
  /-- What is released is all but the living. -/
  released : released + l.countLive living = l.countAll
  trim : l'.Trim living
  /-- Under the same deaths another purge has nothing to do. -/
  again : l'.purged living = l' ∧ l'.released living = 0
  all : l'.countAll = l.countLive living
  live : l'.countLive living = l.countLive living
  reads : ∀ path : List Key, path.all (·.alive living) = true →
    l'.get? living path = l.get? living path

/-- The number that a purge gives is what it took away, and it took away what was dead. -/
theorem accounts_purged {l : Level} (hl : l.Distinct) :
    Accounts living l (l.purged living) (l.released living) where
  released := by
    rw [countLive_eq, countAll_eq]
    exact Level.released_eq living l
  trim := trim_purged l
  again := ⟨purged_purged l, (trim_purged l).released_eq⟩
  all := by rw [countAll_eq, entries_purged, countLive_eq]
  live := by rw [countLive_eq, entries_purged, List.filter_filter, countLive_eq]; simp
  reads path hpath := get?_purged hl hpath

/-- A trie with all that a purge meets: under a living key a dead value above a living one,
a dead key above a strong value and a weak one that is alive, a slot with nothing, and a
slot that is emptied by its level. -/
def mixed : Level :=
  cons (.object 0) (some (.weak (.list 3))) (cons (.int 1) (some (.strong (.int 5))) nil nil) <|
  cons (.object 1) (some (.strong (.int 7))) (cons (.text "a") (some (.weak (.list 2))) nil nil) <|
  cons .null none nil <|
  cons (.bool true) none (cons (.int 2) (some (.weak (.list 3))) nil nil) nil

theorem accounts_mixed : mixed.Distinct ∧
    Accounts (fun id => id != 1 && id != 3) mixed
      (mixed.purged fun id => id != 1 && id != 3) 4 ∧
    mixed.countAll = 5 ∧ mixed.countLive (fun id => id != 1 && id != 3) = 1 := by
  have hd : mixed.Distinct := by simp [mixed, Distinct, under?]
  exact ⟨hd, accounts_purged hd, by decide, by decide⟩

end OpenVariants.Store.Level

import Mathlib.Data.List.Forall2
import OpenVariants.Proofs.Heap

/-! Keys decide sameness.

Two values in hand have one key exactly when they are the same value
(`same_iff_ofValue`). For functions this needs that an object has one label: a
labelled function boxes to its label, an unlabelled one to its object. -/
namespace OpenVariants

namespace Number.Double

theorem isNaN_nan : nan.isNaN = true := by decide

theorem isNaN_zero : zero.isNaN = false := by decide

theorem isZero_zero : zero.isZero = true := by decide

theorem eq_of_bits {a b : Double} (h : a.bits = b.bits) : a = b := by
  cases a
  cases b
  simp_all

theorem not_isNaN_of_isZero {a : Double} (ha : a.isZero = true) : a.isNaN = false := by
  unfold isZero at ha
  rw [isNaN, beq_iff_eq.mp ha]
  decide

/-- Doubles are the same if both are no number, both are zero, or they have the same bits. -/
theorem same_eq (a b : Double) :
    a.same b = (a.isNaN && b.isNaN || a.isZero && b.isZero || a.bits == b.bits) := by
  unfold same numericallyEqual
  by_cases hbits : a.bits = b.bits
  · cases eq_of_bits hbits
    cases a.isNaN <;> simp
  · have hz : a.isZero = true → a.isNaN = false := not_isNaN_of_isZero
    have hz' : b.isZero = true → b.isNaN = false := not_isNaN_of_isZero
    have hne : (a.bits == b.bits) = false := by simpa using hbits
    rw [hne]
    cases ha : a.isNaN <;> cases hb : b.isNaN <;> simp_all

/-- Doubles are the same exactly when they have one normalized pattern. -/
theorem same_iff_normalized (a b : Double) : a.same b = true ↔ a.normalized = b.normalized := by
  have hne : ∀ c : Double, c.isNaN = false → nan ≠ c := by
    rintro c hc rfl
    rw [isNaN_nan] at hc
    cases hc
  have hz : ∀ c : Double, c.isZero = false → zero ≠ c := by
    rintro c hc rfl
    rw [isZero_zero] at hc
    cases hc
  cases ha : a.isNaN <;> cases hb : b.isNaN
  · cases haz : a.isZero <;> cases hbz : b.isZero
    · have : a.bits = b.bits ↔ a = b := ⟨eq_of_bits, fun h => by rw [h]⟩
      simp [same, numericallyEqual, normalized, ha, hb, haz, hbz, this]
    · have : a.bits ≠ b.bits := by
        intro h
        rw [eq_of_bits h, hbz] at haz
        cases haz
      simp [same, numericallyEqual, normalized, ha, hb, haz, hbz, this, (hz a haz).symm]
    · have : a.bits ≠ b.bits := by
        intro h
        rw [eq_of_bits h, hbz] at haz
        cases haz
      simp [same, numericallyEqual, normalized, ha, hb, haz, hbz, this, hz b hbz]
    · simp [same, numericallyEqual, normalized, ha, hb, haz, hbz]
  · have : a.normalized ≠ nan := by
      unfold normalized
      rw [ha]
      cases haz : a.isZero
      · exact (hne a ha).symm
      · exact (hne zero isNaN_zero).symm
    simpa [same, numericallyEqual, ha, hb, show b.normalized = nan by simp [normalized, hb]] using this
  · have : nan ≠ b.normalized := by
      unfold normalized
      rw [hb]
      cases hbz : b.isZero
      · exact hne b hb
      · exact hne zero isNaN_zero
    simpa [same, numericallyEqual, ha, hb, show a.normalized = nan by simp [normalized, ha]] using this
  · simp [same, numericallyEqual, normalized, ha, hb]

end Number.Double

namespace Value

/-- A plain value is the same as another exactly when they have one key. -/
theorem same_iff_of_plain {v w : Value} (hv : v.object? = none) :
    v.same w = true ↔ Key.ofValue v = Key.ofValue w := by
  cases v with
  | float a =>
    cases w with
    | float b =>
      have : a.normalized.bits = b.normalized.bits ↔ a.normalized = b.normalized :=
        ⟨Number.Double.eq_of_bits, fun h => by rw [h]⟩
      simp [same, Key.ofValue, Number.Double.same_iff_normalized, this]
    | function _ l => cases l <;> simp [same, Key.ofValue]
    | _ => simp [same, Key.ofValue]
  | null | bool | int | big | text | symbol =>
    cases w with
    | function _ l => cases l <;> simp [same, Key.ofValue]
    | _ => simp [same, Key.ofValue]
  | list | record | function | lazy | inst => simp [object?] at hv

/-- Values that are the same one by one. -/
abbrev AllSame (vs ws : List Value) : Prop := List.Forall₂ (fun v w => v.same w = true) vs ws

theorem same_refl (v : Value) : v.same v = true := by
  cases v with
  | float a => simp [same, Number.Double.same_iff_normalized]
  | function _ l => cases l <;> simp [same]
  | _ => simp [same]

end Value

theorem Key.object?_eq_some {k : Key} {id : ObjectId} : k.object? = some id ↔ k = .object id := by
  cases k <;> simp [Key.object?]

/-- A path has at least one key, and its keys are those of the values. -/
theorem Key.path_ok {args : List Value} {path : List Key} (h : Key.path args = .ok path) :
    path = args.map Key.ofValue ∧ path ≠ [] := by
  unfold Key.path at h
  split at h
  · cases h
  · next hne =>
    cases h
    exact ⟨rfl, by simpa using hne⟩

namespace Heap

/-- What has an object's own key names the object. -/
theorem ofValue_eq_object {v : Value} {id : ObjectId} (h : Key.ofValue v = .object id) :
    v.object? = some id := by
  unfold Key.ofValue at h
  split at h <;> simp_all [Value.object?]

/-- The key of a value in hand is alive. -/
theorem Proper.key_alive {h : Heap} {v : Value} (hv : h.Proper v) :
    (Key.ofValue v).alive h.alive = true := by
  cases hk : Key.ofValue v with
  | object id => exact holds_iff.mp hv.holds id (ofValue_eq_object hk)
  | _ => rfl

/-- Values that are one value if they name one object are the same exactly when they
have one key. -/
theorem same_iff_of_named {v w : Value}
    (hvw : ∀ id, v.object? = some id → w.object? = some id → v = w) :
    v.same w = true ↔ Key.ofValue v = Key.ofValue w := by
  have hobject : ∀ id, Key.ofValue v = .object id → Key.ofValue v = Key.ofValue w →
      v.same w = true := by
    intro id hi hk
    rw [hvw id (ofValue_eq_object hi) (ofValue_eq_object (hk ▸ hi))]
    exact w.same_refl
  cases v with
  | function i l =>
    refine ⟨fun hs => ?_, fun hk => ?_⟩
    · cases w with
      | function j l' =>
        by_cases hij : i = j
        · rw [hvw i rfl (by rw [hij]; rfl)]
        · cases l <;> cases l' <;> simp_all [Value.same, Key.ofValue]
      | _ => cases l <;> simp [Value.same] at hs
    · cases l with
      | none => exact hobject i rfl hk
      | some s =>
        cases w with
        | function j l' => cases l' <;> simp_all [Value.same, Key.ofValue]
        | _ => simp [Key.ofValue] at hk
  | list i | record i | lazy i | inst i =>
    refine ⟨fun hs => ?_, fun hk => hobject i rfl hk⟩
    cases w with
    | function _ l => cases l <;> simp [Value.same] at hs
    | _ => simp_all [Value.same, Key.ofValue]
  | _ => exact Value.same_iff_of_plain rfl

/-- Lists of such values are pairwise the same exactly when they have one path. -/
theorem allSame_iff_of_named {vs ws : List Value}
    (hvw : ∀ v ∈ vs, ∀ w ∈ ws, ∀ id, v.object? = some id → w.object? = some id → v = w) :
    Value.AllSame vs ws ↔ vs.map Key.ofValue = ws.map Key.ofValue := by
  induction vs generalizing ws with
  | nil => cases ws <;> simp
  | cons v vs ih =>
    cases ws with
    | nil => simp
    | cons w ws =>
      have hhead := same_iff_of_named (hvw v List.mem_cons_self w List.mem_cons_self)
      have htail := ih fun v' hv w' hw =>
        hvw v' (List.mem_cons_of_mem v hv) w' (List.mem_cons_of_mem w hw)
      simp [hhead, htail]

/-- Values in hand are the same exactly when they have one key. -/
theorem same_iff_ofValue {h : Heap} {v w : Value} (hv : h.Proper v) (hw : h.Proper w) :
    v.same w = true ↔ Key.ofValue v = Key.ofValue w :=
  same_iff_of_named fun _ => hv.eq_of_object? hw

/-- Values of some time are pairwise the same as values in hand exactly when they have one
path. -/
theorem allSame_iff_of_known {h : Heap} {vs ws : List Value} (hv : ∀ v ∈ vs, h.Known v)
    (hw : ∀ w ∈ ws, h.Proper w) :
    Value.AllSame vs ws ↔ vs.map Key.ofValue = ws.map Key.ofValue :=
  allSame_iff_of_named fun v hmem w hmem' _ => (hv v hmem).eq_of_object? (hw w hmem')

/-- Lists of values in hand are pairwise the same exactly when they have one path. -/
theorem allSame_iff {h : Heap} {vs ws : List Value} (hv : ∀ v ∈ vs, h.Proper v)
    (hw : ∀ w ∈ ws, h.Proper w) :
    Value.AllSame vs ws ↔
      vs.map Key.ofValue = ws.map Key.ofValue :=
  allSame_iff_of_known (fun v hmem => (hv v hmem).known) hw

end Heap

end OpenVariants

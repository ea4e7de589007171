import OpenVariants.Proofs.Finality

/-! Keys decide sameness in every state.

The values of a state are those that names, fields, knots, stores and handles give, and
those that expressions come to (`World.Occurs`). Each refers to a living object by that
object's own name, so a function has one label wherever it occurs. Therefore keys are
equal exactly for values that are the same, also when they are compared by what a hasher
gets of them (`Key.fed`), and stores, memo tables and canonical construction tell apart
just what is not the same (`World.Keyed`). -/
namespace OpenVariants

/-! ### Hashing -/

/-- What is written to a hasher in one go. -/
inductive Fed where
  | discriminant (n : Nat)
  | bool (b : Bool)
  | int (i : Int64)
  | big (i : Int)
  | bits (bits : UInt64)
  | text (s : String)
  | tag (id : UInt32)
  | address (id : ObjectId)
  deriving DecidableEq

namespace Key

/-- What a key writes to a hasher: its kind and what it holds, of an object the address. -/
def fed : Key → List Fed
  | null => [.discriminant 0]
  | bool b => [.discriminant 1, .bool b]
  | int i => [.discriminant 2, .int i]
  | big i => [.discriminant 3, .big i]
  | float bits => [.discriminant 4, .bits bits]
  | text s => [.discriminant 5, .text s]
  | symbol name => [.discriminant 6, .text name]
  | label source => [.discriminant 7, .text source]
  | tag id => [.discriminant 8, .tag id]
  | object id => [.discriminant 9, .address id]

/-- Different keys write something different. -/
theorem fed_injective : Function.Injective fed := by
  intro a b h
  cases a <;> cases b <;> simp_all [fed]

/-- The state of a hasher after a key. -/
def hash (write : σ → Fed → σ) (start : σ) (k : Key) : σ := k.fed.foldl write start

end Key

namespace World

/-! ### The values of a state -/

/-- The values that are there to be compared in a state in which `hand` was just computed:
plain ones, what names keep alive, with all that stores and tables hold strongly, what
living objects refer to, and what handles give that keep nothing alive. -/
inductive Occurs (w : World) (hand : List Value) (v : Value) : Prop
  | plain (h : v.object? = none)
  | computed (h : v ∈ hand)
  | named (h : v ∈ w.roots)
  | field (i : ObjectId) (o : Object) (ho : w.heap.object? i = some o) (h : v ∈ o.children)
  | handle (h : w.Handle v) (hlive : w.heap.holds v = true)
  | canonical (r : RegistryId) (a : Registry) (path : List Key) (hr : w.registries[r]? = some a)
      (h : a.canonical.get? w.heap path = some v)

/-- Whatever occurs refers to a living object by its own name. -/
theorem Occurs.proper {w : World} {rs : Array Registry} (ht : w.Twin rs) {hand : List Value}
    (hhand : w.Has hand) {v : Value} (h : w.Occurs hand v) : w.heap.Proper v := by
  cases h with
  | plain h => exact Heap.proper_of_plain h
  | computed h => exact hhand v h
  | named h => exact ht.fit.roots v h
  | field i o ho h => exact (ht.fit.tables.heap i o ho v h).1
  | handle h hlive => exact (ht.fit.handle h).proper hlive
  | canonical r a path hr h =>
    obtain ⟨-, -, hin, -⟩ := (ht.registries.fit hr).get? h
    exact hin

/-! ### Lookups -/

variable {w : World}

/-- What was put under a path is read under this path, and nothing else changes. -/
theorem stored?_storeSet {id : StoreId} {s : Store} (hs : w.stores[id]? = some s)
    {path : List Key} (hpath : path ≠ []) {v : Value} (hv : w.heap.Proper v) (q : List Key) :
    (w.storeSet id path v).stored? id q = if q = path then some v else w.stored? id q := by
  have hload : (s.stored w.heap path v).load w.heap.alive = some v := by
    have hweak : (Store.Stored.weak v).load w.heap.alive = some v := if_pos hv.holds
    unfold Store.stored
    split
    · exact hweak
    · split
      · exact hweak
      · rfl
  rw [stored?_eq_held?, stored?_eq_held?, held?_storeSet hs hpath]
  split
  · exact hload
  · rfl

/-- A registry that learned a new instance finds it. -/
theorem get?_learn (a : Registry) (tag : Tag) (fields : List Value) :
    (Registry.learn w.nextObject (canonicalPath tag fields) a).canonical.root.get?
      (w.heap.push (.content (.fields tag fields))).alive (canonicalPath tag fields) =
        some (.inst w.nextObject) := by
  have hpath : canonicalPath tag fields ≠ [] := by simp [canonicalPath]
  rw [Store.Level.get?, Registry.learn, Store.Level.stored?_insert _ _ _ _ hpath, if_pos rfl]
  exact if_pos (Heap.proper_inst (object?_fresh w tag fields)).holds

/-- What was constructed is known from then on. -/
theorem canonicalize_get? {r : RegistryId} {a : Registry} (ha : w.registries[r]? = some a)
    (hfit : a.Fit w.heap) (tag : Tag) {fields : List Value} (hin : w.Has fields)
    {x : Value} {w' : World} (hx : w.canonicalize r tag fields = (x, w')) :
    ∃ a', w'.registries[r]? = some a' ∧ a'.Fit w'.heap ∧
      a'.canonical.root.get? w'.heap.alive (canonicalPath tag fields) = some x := by
  rw [canonicalize_eq ha hfit.retention] at hx
  cases hget : a.canonical.root.get? w.heap.alive (canonicalPath tag fields) with
  | some v =>
    rw [hget] at hx
    cases hx
    exact ⟨a, ha, hfit, hget⟩
  | none =>
    rw [hget] at hx
    have hbefore := Heap.before_push w.heap (.content (.fields tag fields))
    have hextends := Heap.extends_push w.heap (.content (.fields tag fields))
    have hlearned := (hfit.later hbefore).learn (by simp [canonicalPath]) (under_push w tag fields)
      (made_push tag hin)
    have hlearns : (w.withInstance r tag fields).registries[r]? =
        some (Registry.learn w.nextObject (canonicalPath tag fields) a) := by
      rw [registries_withInstance, if_pos rfl, ha]
      rfl
    -- The sweep that may follow leaves it, since it lives as its fields do.
    obtain ⟨rs, hcount, hsweeps⟩ := countFresh_sweeps (w.withInstance r tag fields) r
    obtain ⟨a', ha', hswept⟩ := hsweeps.swept r _ hlearns
    have halive := canonicalPath_alive tag fun v hv => (hin v hv).extends hextends
    rw [hcount] at hx
    cases hx
    exact ⟨a', ha', hswept.fit hlearned, hswept.get? hlearned halive (get?_learn a tag fields)⟩

/-- Constructing twice gives one instance exactly if the paths are equal. -/
theorem canonicalize_canonicalize {r : RegistryId} {a : Registry} (ha : w.registries[r]? = some a)
    (hfit : a.Fit w.heap) (tag : Tag) {fields : List Value} (hin : w.Has fields)
    {x : Value} {w' : World} (hx : w.canonicalize r tag fields = (x, w')) (fields' : List Value) :
    (w'.canonicalize r tag fields').1 = x ↔
      canonicalPath tag fields' = canonicalPath tag fields := by
  obtain ⟨a', ha', hfit', hget⟩ := canonicalize_get? ha hfit tag hin hx
  rw [canonicalize_eq ha' hfit'.retention]
  refine ⟨fun heq => ?_, fun hpath => by rw [hpath, hget]⟩
  cases hget' : a'.canonical.root.get? w'.heap.alive (canonicalPath tag fields') with
  | some v =>
    rw [hget'] at heq
    cases heq
    exact hfit'.path_eq hget' hget
  | none =>
    -- A fresh instance is none that was there.
    rw [hget'] at heq
    obtain ⟨id, rfl, hin', -⟩ := hfit'.get? hget
    cases heq
    exact absurd (hin'.lt_size rfl) (Nat.lt_irrefl _)

/-! ### What keys decide -/

/-- Boxed to keys the values of a state are told apart just as sameness tells them apart. -/
structure Keyed (w : World) (hand : List Value) : Prop where
  key : ∀ a b, w.Occurs hand a → w.Occurs hand b →
    (Key.ofValue a = Key.ofValue b ↔ a.same b = true)
  /-- Also paths of values that were boxed earlier, and may have died. -/
  path : ∀ args args', (∀ a ∈ args, w.heap.Known a) → (∀ a ∈ args', w.Occurs hand a) →
    (args.map Key.ofValue = args'.map Key.ofValue ↔ Value.AllSame args args')
  fed : ∀ a b, w.Occurs hand a → w.Occurs hand b →
    ((Key.ofValue a).fed = (Key.ofValue b).fed ↔ a.same b = true)
  hash : ∀ a b, w.Occurs hand a → w.Occurs hand b → a.same b = true →
    ∀ (σ : Type) (write : σ → Fed → σ) (start : σ),
      (Key.ofValue a).hash write start = (Key.ofValue b).hash write start
  refl : ∀ a, w.Occurs hand a → a.same a = true
  symm : ∀ a b, w.Occurs hand a → w.Occurs hand b → a.same b = true → b.same a = true
  trans : ∀ a b c, w.Occurs hand a → w.Occurs hand b → w.Occurs hand c →
    a.same b = true → b.same c = true → a.same c = true
  /-- What a store or a memo table gets for some values it gives for the same ones, and
  nothing changes for others. -/
  lookup : ∀ id s args args' path path' v, w.stores[id]? = some s →
    (∀ a ∈ args, w.Occurs hand a) → (∀ a ∈ args', w.Occurs hand a) → w.Occurs hand v →
    Key.path args = .ok path → Key.path args' = .ok path' →
    (Value.AllSame args' args → (w.storeSet id path v).stored? id path' = some v) ∧
      (¬Value.AllSame args' args →
        (w.storeSet id path v).stored? id path' = w.stored? id path')
  /-- Constructing again gives the same instance for the same fields only. -/
  construct : ∀ r a tag fields fields' x w', w.registries[r]? = some a →
    (∀ v ∈ fields, w.Occurs hand v) → (∀ v ∈ fields', w.Occurs hand v) →
    w.canonicalize r tag fields = (x, w') →
    ((w'.canonicalize r tag fields').1 = x ↔ Value.AllSame fields' fields)

theorem Twin.keyed {rs : Array Registry} (ht : w.Twin rs) {hand : List Value}
    (hhand : w.Has hand) : w.Keyed hand := by
  have hin : ∀ {v}, w.Occurs hand v → w.heap.Proper v := fun h => h.proper ht hhand
  have hall : ∀ {vs : List Value}, (∀ v ∈ vs, w.Occurs hand v) → w.Has vs :=
    fun h v hv => hin (h v hv)
  have hkey : ∀ {a b}, w.Occurs hand a → w.Occurs hand b →
      (a.same b = true ↔ Key.ofValue a = Key.ofValue b) :=
    fun ha hb => Heap.same_iff_ofValue (hin ha) (hin hb)
  refine
    { key := fun a b ha hb => (hkey ha hb).symm
      path := fun args args' hargs hargs' =>
        (Heap.allSame_iff_of_known hargs (hall hargs')).symm
      fed := fun a b ha hb => Key.fed_injective.eq_iff.trans (hkey ha hb).symm
      hash := fun a b ha hb h σ write start => by rw [(hkey ha hb).mp h]
      refl := fun a _ => a.same_refl
      symm := fun a b ha hb h => (hkey hb ha).mpr ((hkey ha hb).mp h).symm
      trans := fun a b c ha hb hc h h' =>
        (hkey ha hc).mpr (((hkey ha hb).mp h).trans ((hkey hb hc).mp h'))
      lookup := fun id s args args' path path' v hs hargs hargs' hv hpath hpath' => ?_
      construct := fun r a tag fields fields' x w' hr hfields hfields' hx => ?_ }
  · obtain ⟨rfl, hne⟩ := Key.path_ok hpath
    obtain ⟨rfl, -⟩ := Key.path_ok hpath'
    have hsame := Heap.allSame_iff (hall hargs') (hall hargs)
    rw [hsame, stored?_storeSet hs hne (hin hv)]
    exact ⟨fun h => if_pos h, fun h => if_neg h⟩
  · rw [canonicalize_canonicalize hr (ht.registries.fit hr) tag (hall hfields) hx,
      Heap.allSame_iff (hall hfields') (hall hfields)]
    simp [canonicalPath]

end World

namespace Session
open World Run

/-- The state when expressions were evaluated one after the other, between two steps of a
session. -/
def Comes (w : World) (hand : List Value) : Prop :=
  ∃ w₀ es, Reachable w₀ ∧ evaluateAll es w₀ = (.ok hand, w)

/-- **Keys decide sameness.** In every state of every session keys are equal exactly for
values that are the same, equal keys hash alike, and sameness is an equivalence. So
stores, memo tables and canonical construction tell apart just what is not the same. -/
theorem Comes.keys_decide {w : World} {hand : List Value} (h : Comes w hand) : w.Keyed hand := by
  obtain ⟨w₀, es, hw, he⟩ := h
  obtain ⟨r, w', rs, hrun, -, ht, -, hhand⟩ :=
    steady_evaluateAll es w₀ w₀.registries (.refl w₀) hw.atRest.twin
  rw [he] at hrun
  cases hrun
  exact ht.keyed (hhand hand rfl)

/-- What a comparison says of values both ways, and of their keys, agrees. -/
theorem Reachable.comparison_agrees {w : World} (hw : Reachable w) {s : Step} {a b : Expr}
    (hs : s.command = .compare a b) {same flipped keys : Bool} {identical? : Option Bool}
    (h : (step s w).1.outcome = .ok (.comparison same flipped keys identical?)) :
    flipped = same ∧ keys = same := by
  have hrun : execute s.quiet (.compare a b) {w with log := []} =
      (do
        let x ← evaluate a
        let y ← evaluate b
        only (.comparison (x.same y) (y.same x) (Key.ofValue x = Key.ofValue y) (x.identical? y)) :
          Run (Reply × Option Binding)) {w with log := []} := rfl
  obtain ⟨r, w₁, rs₁, he₁, -, ht₁, -, hx⟩ :=
    steady_evaluate a _ w.registries (.refl {w with log := []}) hw.atRest.twin.unlogged
  rw [step_eq, hs, hrun, bind_apply, he₁] at h
  cases r with
  | error stop => cases h
  | ok x =>
    obtain ⟨r, w₂, rs₂, he₂, -, -, ho₂, hy⟩ := steady_evaluate b w₁ rs₁ (.refl w₁) ht₁
    simp only [bind_apply, he₂] at h
    cases r with
    | error stop => cases h
    | ok y =>
      cases h
      have hxy := Heap.same_iff_ofValue (HasValue.onward (hx x rfl) ho₂) (hy y rfl)
      have hyx := Heap.same_iff_ofValue (hy y rfl) (HasValue.onward (hx x rfl) ho₂)
      refine ⟨Bool.eq_iff_iff.mpr (hyx.trans (eq_comm.trans hxy.symm)), Bool.eq_iff_iff.mpr ?_⟩
      rw [decide_eq_true_iff, hxy]

/-- Two functions of one label and one without. -/
def functions : List Step :=
  [{command := .eval (.function (some "twice") (.arg 0)), as? := some "first"},
    {command := .eval (.function (some "twice") (.arg 0)), as? := some "second"},
    {command := .eval (.function none (.arg 0)), as? := some "other"}]

/-- Their keys, and those of two NaNs and the two zeros. -/
theorem functions_keyed :
    Comes (after functions (start {})) [] ∧
      Key.ofValue (.function 0 (some "twice")) = Key.ofValue (.function 1 (some "twice")) ∧
      Key.ofValue (.function 0 (some "twice")) ≠ Key.ofValue (.function 2 none) ∧
      Key.ofValue (.float ⟨0x7ff8000000000001⟩) = Key.ofValue (.float ⟨0xfff0000000000001⟩) ∧
      Key.ofValue (.float ⟨0⟩) = Key.ofValue (.float ⟨0x8000000000000000⟩) := by
  have hcomes : Comes (after functions (start {})) [] := ⟨_, [], ⟨{}, functions, rfl⟩, rfl⟩
  have hkey := hcomes.keys_decide.key
  have hnamed : ∀ v ∈ (after functions (start {})).roots, (after functions (start {})).Occurs [] v :=
    fun v hv => .named hv
  have hroots : (after functions (start {})).roots =
      [.function 2 none, .function 1 (some "twice"), .function 0 (some "twice")] := rfl
  rw [hroots] at hnamed
  have hfirst := hnamed (.function 0 (some "twice")) (by simp)
  have hsecond := hnamed (.function 1 (some "twice")) (by simp)
  have hother := hnamed (.function 2 none) (by simp)
  refine ⟨hcomes, (hkey _ _ hfirst hsecond).mpr rfl, ?_, (hkey _ _ (.plain rfl) (.plain rfl)).mpr rfl,
    (hkey _ _ (.plain rfl) (.plain rfl)).mpr rfl⟩
  intro h
  have hsame := (hkey _ _ hfirst hother).mp h
  cases hsame

end Session

end OpenVariants

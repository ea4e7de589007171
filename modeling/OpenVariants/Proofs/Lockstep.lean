import OpenVariants.Proofs.Alike
import OpenVariants.Proofs.Declared
import OpenVariants.Proofs.Hand

/-! Runs in lockstep.

Two worlds that only sweeps tell apart differ in their registries, and these are twins
(`World.Twin`). A computation is steady if from such worlds it gives one result and
leaves such worlds behind (`Run.Steady`). It may rely on what is in hand in the world
where it begins, and has to end with what is in hand; so what a construction is given
is living, and that is all that a sweep must not touch. -/
namespace OpenVariants

namespace World

/-- Registries that are twins one by one. -/
structure Twins (h : Heap) (rs rs' : Array Registry) : Prop where
  size : rs.size = rs'.size
  twin : ∀ (i : RegistryId) a b, rs[i]? = some a → rs'[i]? = some b → a.Twin h b

/-- A world and other registries, which make another world that only sweeps tell apart. -/
structure Twin (w : World) (rs : Array Registry) : Prop where
  fit : w.Fit
  registries : Twins w.heap w.registries rs

theorem Twins.later {h h' : Heap} {rs rs' : Array Registry} (ht : Twins h rs rs')
    (hb : h.Before h') : Twins h' rs rs' :=
  ⟨ht.size, fun i a b ha hb' => (ht.twin i a b ha hb').later hb⟩

/-- A part of a command that leaves registries alone. -/
theorem Twin.onward {w w' : World} {rs : Array Registry} (h : w.Twin rs) (ho : w.Onward w')
    (hregistries : w'.registries = w.registries) : w'.Twin rs :=
  ⟨h.fit.onward ho, hregistries ▸ h.registries.later ho.before⟩

end World

namespace Run
open World

/-! ### Steady computations -/

/-- From a world and from the one with the other registries a computation gives one
result, and leaves such worlds. -/
def InStep (x : Run α) (post : World → α → Prop) (w : World) (rs : Array Registry) : Prop :=
  ∃ r w' rs', x w = (r, w') ∧ x {w with registries := rs} = (r, {w' with registries := rs'}) ∧
    w'.Twin rs' ∧ w.Onward w' ∧ ∀ a, r = .ok a → post w' a

/-- A computation that is in step from a world on, and whose results have a property of
what is in hand. -/
def Steady (x : Run α) (post : World → α → Prop) (w : World) : Prop :=
  ∀ w' rs, w.Onward w' → w'.Twin rs → x.InStep post w' rs

section Combinators
variable {w : World} {post : World → α → Prop} {post' : World → β → Prop}

theorem Steady.later {x : Run α} {w' : World} (h : x.Steady post w) (ho : w.Onward w') :
    x.Steady post w' := fun w'' rs ho' => h w'' rs (ho.trans ho')

theorem Steady.mono {x : Run α} {post₂ : World → α → Prop} (h : x.Steady post w)
    (himp : ∀ w' a, w.Onward w' → post w' a → post₂ w' a) : x.Steady post₂ w := by
  intro w' rs ho ht
  obtain ⟨r, w₁, rs₁, hx, hy, ht₁, ho₁, hpost⟩ := h w' rs ho ht
  exact ⟨r, w₁, rs₁, hx, hy, ht₁, ho₁, fun a ha => himp w₁ a (ho.trans ho₁) (hpost a ha)⟩

theorem steady_pure {a : α} (h : ∀ w', w.Onward w' → post w' a) :
    (pure a : Run α).Steady post w :=
  fun w' rs ho ht => ⟨.ok a, w', rs, rfl, rfl, ht, .refl w', fun _ ha => Except.ok.inj ha ▸ h w' ho⟩

theorem steady_throw (stop : Stop) : (throw stop : Run α).Steady post w :=
  fun w' rs _ ht => ⟨.error stop, w', rs, rfl, rfl, ht, .refl w', nofun⟩

theorem steady_fail (f : Fault) : (Run.fail f : Run α).Steady post w := steady_throw _

theorem steady_lift {r : Except Fault α} (h : ∀ a, r = .ok a → ∀ w', w.Onward w' → post w' a) :
    (Run.lift r).Steady post w := by
  cases r with
  | ok a => exact steady_pure (h a rfl)
  | error f => exact steady_fail f

theorem Steady.bind {x : Run α} {f : α → Run β} (hx : x.Steady post w)
    (hf : ∀ w' a, w.Onward w' → post w' a → (f a).Steady post' w') : (x >>= f).Steady post' w := by
  intro w' rs ho ht
  obtain ⟨r, w₁, rs₁, hx₁, hy₁, ht₁, ho₁, hpost⟩ := hx w' rs ho ht
  cases r with
  | error stop =>
    refine ⟨.error stop, w₁, rs₁, ?_, ?_, ht₁, ho₁, nofun⟩
    · rw [bind_apply, hx₁]
    · rw [bind_apply, hy₁]
  | ok a =>
    obtain ⟨r, w₂, rs₂, hx₂, hy₂, ht₂, ho₂, hpost⟩ :=
      hf w₁ a (ho.trans ho₁) (hpost a rfl) w₁ rs₁ (.refl w₁) ht₁
    refine ⟨r, w₂, rs₂, ?_, ?_, ht₂, ho₁.trans ho₂, hpost⟩
    · rw [bind_apply, hx₁]
      exact hx₂
    · rw [bind_apply, hy₁]
      exact hy₂

/-- A computation may read the world, if it reads what twins agree on. -/
theorem steady_read {f : World → Run α}
    (hf : ∀ w', w.Onward w' → w'.Fit → (f w').Steady post w')
    (hsame : ∀ w' rs, w'.Twin rs → f {w' with registries := rs} = f w') :
    (get >>= f).Steady post w := by
  intro w' rs ho ht
  obtain ⟨r, w₁, rs₁, hx, hy, hrest⟩ := hf w' ho ht.fit w' rs (.refl w') ht
  refine ⟨r, w₁, rs₁, hx, ?_, hrest⟩
  rw [bind_apply, get_apply]
  exact (congrFun (hsame w' rs ht) _).trans hy

/-- A computation that does not read registries may read the world. -/
theorem steady_get {f : World → Run α}
    (hf : ∀ w', w.Onward w' → w'.Fit → (f w').Steady post w')
    (hsame : ∀ w' rs, f {w' with registries := rs} = f w') : (get >>= f).Steady post w :=
  steady_read hf fun w' rs _ => hsame w' rs

/-- A computation in one go: it reads what twins agree on and leaves registries alone. -/
theorem steady_atomic {x : Run α}
    (hx : ∀ w' rs, w.Onward w' → w'.Twin rs → ∃ r w₁, x w' = (r, w₁) ∧
      x {w' with registries := rs} = (r, {w₁ with registries := rs}) ∧
      w₁.registries = w'.registries ∧ w'.Onward w₁ ∧ ∀ a, r = .ok a → post w₁ a) :
    x.Steady post w := by
  intro w' rs ho ht
  obtain ⟨r, w₁, hrun, hrun', hregistries, ho', hpost⟩ := hx w' rs ho ht
  exact ⟨r, w₁, rs, hrun, hrun', ht.onward ho' hregistries, ho', hpost⟩

/-- A change that leaves registries alone. -/
theorem steady_change {f : World → α × World}
    (hf : ∀ w', w.Onward w' → w'.Fit → w'.Onward (f w').2 ∧ post (f w').2 (f w').1)
    (hregistries : ∀ w', (f w').2.registries = w'.registries)
    (hsame : ∀ w' rs, f {w' with registries := rs} = ((f w').1, {(f w').2 with registries := rs})) :
    (Run.change f).Steady post w := by
  intro w' rs ho ht
  obtain ⟨ho', hpost⟩ := hf w' ho ht.fit
  refine ⟨.ok (f w').1, (f w').2, rs, rfl, ?_, ht.onward ho' (hregistries w'), ho', ?_⟩
  · rw [change_apply, hsame]
  · rintro a ⟨⟩
    exact hpost

theorem steady_modify {f : World → World} (hf : ∀ w', w.Onward w' → w'.Fit → w'.Onward (f w'))
    (hregistries : ∀ w', (f w').registries = w'.registries)
    (hsame : ∀ w' rs, f {w' with registries := rs} = {f w' with registries := rs}) :
    (modify f : Run PUnit).Steady (fun _ _ => True) w := by
  intro w' rs ho ht
  have ho' := hf w' ho ht.fit
  refine ⟨.ok ⟨⟩, f w', rs, rfl, ?_, ht.onward ho' (hregistries w'), ho', fun _ _ => trivial⟩
  rw [modify_apply, hsame]

/-- What goes on in step after a change of what is in hand. -/
theorem InStep.after {x y : Run α} {w₁ : World} {rs : Array Registry} (ho : w.Onward w₁)
    (hx : x w = y w₁) (hx' : x {w with registries := rs} = y {w₁ with registries := rs})
    (hy : y.InStep post w₁ rs) : x.InStep post w rs := by
  obtain ⟨r, w₂, rs₂, hrun, hrun', ht, ho', hpost⟩ := hy
  exact ⟨r, w₂, rs₂, hx.trans hrun, hx'.trans hrun', ht, ho.trans ho', hpost⟩

theorem Steady.at {x : Run α} (site : FieldSite) (hx : x.Steady post w) :
    (Run.at site x).Steady post w := by
  intro w' rs ho ht
  obtain ⟨r, w₁, rs₁, hx, hy, ht₁, ho₁, hpost⟩ := hx w' rs ho ht
  cases r with
  | ok a => exact ⟨.ok a, w₁, rs₁, by rw [Run.at, hx], by rw [Run.at, hy], ht₁, ho₁, hpost⟩
  | error stop =>
    cases stop with
    | fault f =>
      exact ⟨.error (.fault (f.located site)), w₁, rs₁, by rw [Run.at, hx], by rw [Run.at, hy], ht₁,
        ho₁, nofun⟩
    | exhausted =>
      exact ⟨.error .exhausted, w₁, rs₁, by rw [Run.at, hx], by rw [Run.at, hy], ht₁, ho₁, nofun⟩

end Combinators

end Run

/-! ### Registries -/

namespace World
variable {h : Heap} {rs rs' : Array Registry}

/-- Registries after some of them were counted and swept. -/
structure Sweeps (h : Heap) (rs rs' : Array Registry) : Prop where
  size : rs'.size = rs.size
  swept : ∀ (i : RegistryId) a, rs[i]? = some a → ∃ a', rs'[i]? = some a' ∧ a.Swept h a'

theorem Sweeps.refl (h : Heap) (rs : Array Registry) : Sweeps h rs rs :=
  ⟨rfl, fun _ a ha => ⟨a, ha, .refl h a⟩⟩

theorem sweeps_modify (rs : Array Registry) (r : RegistryId) {change : Registry → Registry}
    (hchange : ∀ a : Registry, a.Swept h (change a)) : Sweeps h rs (rs.modify r change) := by
  refine ⟨by simp, fun i a ha => ?_⟩
  rw [Array.getElem?_modify, ha]
  split
  · exact ⟨change a, rfl, hchange a⟩
  · exact ⟨a, rfl, .refl h a⟩

theorem sweep_sweeps (w : World) (r : RegistryId) :
    Sweeps w.heap w.registries (w.sweep r).registries := by
  have hswept : ∀ a : Registry,
      a.Swept w.heap {a with canonical := a.canonical.purged w.heap} :=
    fun _ => ⟨rfl, rfl, rfl, .inr rfl⟩
  exact sweeps_modify w.registries r hswept

theorem countFresh_sweeps (w : World) (r : RegistryId) :
    ∃ rs, w.countFresh r = {w with registries := rs} ∧ Sweeps w.heap w.registries rs := by
  unfold countFresh
  split
  · exact ⟨w.registries, rfl, .refl _ _⟩
  · dsimp only
    split
    · exact ⟨w.registries, rfl, .refl _ _⟩
    · split
      · rw [sweep, updateRegistry_updateRegistry]
        exact ⟨_, rfl, sweeps_modify _ r fun _ => ⟨rfl, rfl, rfl, .inr rfl⟩⟩
      · exact ⟨_, rfl, sweeps_modify _ r fun _ => ⟨rfl, rfl, rfl, .inl rfl⟩⟩

theorem Twins.swept {rs₁ rs₁' : Array Registry} (ht : Twins h rs rs') (hs : Sweeps h rs rs₁)
    (hs' : Sweeps h rs' rs₁') : Twins h rs₁ rs₁' := by
  refine ⟨by rw [hs.size, hs'.size, ht.size], fun i a b ha hb => ?_⟩
  have hlt : i < rs.size := hs.size ▸ (Array.getElem?_eq_some_iff.mp ha).1
  have hlt' : i < rs'.size := hs'.size ▸ (Array.getElem?_eq_some_iff.mp hb).1
  obtain ⟨a₁, ha₁, hswept⟩ := hs.swept i _ (Array.getElem?_eq_getElem hlt)
  obtain ⟨b₁, hb₁, hswept'⟩ := hs'.swept i _ (Array.getElem?_eq_getElem hlt')
  rw [ha] at ha₁
  rw [hb] at hb₁
  cases ha₁
  cases hb₁
  exact (ht.twin i _ _ (Array.getElem?_eq_getElem hlt) (Array.getElem?_eq_getElem hlt')).swept
    hswept hswept'

theorem Twins.modify (ht : Twins h rs rs') (r : RegistryId) {f g : Registry → Registry}
    (hfg : ∀ a b, a.Twin h b → (f a).Twin h (g b)) : Twins h (rs.modify r f) (rs'.modify r g) := by
  refine ⟨by simp [ht.size], fun i a b ha hb => ?_⟩
  rw [Array.getElem?_modify] at ha hb
  split at ha
  · next hr =>
    rw [if_pos hr] at hb
    obtain ⟨a', ha', rfl⟩ := Option.map_eq_some_iff.mp ha
    obtain ⟨b', hb', rfl⟩ := Option.map_eq_some_iff.mp hb
    exact hfg a' b' (ht.twin i a' b' ha' hb')
  · next hr =>
    rw [if_neg hr] at hb
    exact ht.twin i a b ha hb

/-- A registry is missing on both sides, or there is one on either side. -/
theorem Twins.cases (ht : Twins h rs rs') (r : RegistryId) :
    rs[r]? = none ∧ rs'[r]? = none ∨
      ∃ a b, rs[r]? = some a ∧ rs'[r]? = some b ∧ a.Twin h b := by
  by_cases hlt : r < rs.size
  · have hlt' : r < rs'.size := ht.size ▸ hlt
    exact .inr ⟨_, _, Array.getElem?_eq_getElem hlt, Array.getElem?_eq_getElem hlt',
      ht.twin r _ _ (Array.getElem?_eq_getElem hlt) (Array.getElem?_eq_getElem hlt')⟩
  · have hge := Nat.le_of_not_lt hlt
    exact .inl ⟨Array.getElem?_eq_none hge, Array.getElem?_eq_none (ht.size ▸ hge)⟩

theorem Twins.fit (ht : Twins h rs rs') {r : RegistryId} {a : Registry} (ha : rs[r]? = some a) :
    a.Fit h := by
  rcases ht.cases r with ⟨hnone, -⟩ | ⟨a', b, ha', -, htwin⟩
  · rw [ha] at hnone
    cases hnone
  · rw [ha] at ha'
    cases ha'
    exact htwin.left

/-! ### Fresh instances -/

theorem object?_fresh (w : World) (tag : Tag) (fields : List Value) :
    (w.heap.push (.content (.fields tag fields))).object? w.nextObject =
      some (.content (.fields tag fields)) := by
  rw [Heap.object?_push]
  exact if_pos rfl

/-- A new instance has its path. -/
theorem under_push (w : World) (tag : Tag) (fields : List Value) :
    (w.heap.push (.content (.fields tag fields))).Under w.nextObject (canonicalPath tag fields) := by
  have hfresh := object?_fresh w tag fields
  refine ⟨(Heap.proper_inst hfresh).known, fun o ho => ?_⟩
  rw [hfresh] at ho
  exact ⟨tag, fields, (Option.some.inj ho).symm, rfl⟩

theorem made_push {w : World} (tag : Tag) {fields : List Value} (hin : w.Has fields) :
    Store.Level.Made (w.heap.push (.content (.fields tag fields)))
      (canonicalPath tag fields, .weak (.inst w.nextObject)) := by
  refine ⟨fun id hid => ?_, fun id hid => ?_⟩
  · simp only [canonicalPath, List.mem_cons, reduceCtorEq, false_or, List.mem_map] at hid
    obtain ⟨v, hv, hkey⟩ := hid
    exact Nat.lt_of_lt_of_le ((hin v hv).lt_size (Heap.ofValue_eq_object hkey))
      (Heap.before_push _ _).size
  · cases hid
    exact Heap.lt_size (object?_fresh w tag fields)

end World

namespace Run
open World
variable {w : World}

/-- To a construction on what is in hand twins are the same. -/
theorem steady_canonicalize (r : RegistryId) (tag : Tag) {fields : List Value}
    (hin : w.Has fields) :
    (Run.change (World.canonicalize r tag fields)).Steady
      (fun w v => ∃ id, v = .inst id ∧ w.heap.Proper v) w := by
  intro w' rs ho ht
  have hin' := hin.onward ho
  have hpush := onward_push (w := w') (o := .content (.fields tag fields)) hin'
  have hfresh := object?_fresh w' tag fields
  rcases ht.registries.cases r with ⟨hnone, hnone'⟩ | ⟨a, b, ha, hb, htwin⟩
  · refine ⟨.ok (.inst w'.nextObject), w'.push (.content (.fields tag fields)), rs, ?_, ?_,
      ht.onward hpush rfl, hpush, ?_⟩
    · simp only [change_apply, canonicalize, hnone]
    · simp only [change_apply, canonicalize, hnone']
      rfl
    · rintro v ⟨⟩
      exact ⟨_, rfl, Heap.proper_inst hfresh⟩
  · have hpath := htwin.get?_eq (canonicalPath_alive tag hin')
    have heq := canonicalize_eq ha htwin.left.retention tag fields
    have heq' := canonicalize_eq (w := {w' with registries := rs}) hb htwin.right.retention tag fields
    cases hget : a.canonical.root.get? w'.heap.alive (canonicalPath tag fields) with
    | some v =>
      rw [hget] at heq hpath
      refine ⟨.ok v, w', rs, ?_, ?_, ht, .refl w', ?_⟩
      · rw [change_apply, heq]
      · rw [change_apply, heq', ← hpath]
      · rintro u ⟨⟩
        obtain ⟨id, hid, hin, -⟩ := htwin.left.get? hget
        exact ⟨id, hid, hin⟩
    | none =>
      rw [hget] at heq hpath
      obtain ⟨rs₁, hcount, hsweeps⟩ := countFresh_sweeps (w'.withInstance r tag fields) r
      obtain ⟨rs₂, hcount', hsweeps'⟩ :=
        countFresh_sweeps (({w' with registries := rs} : World).withInstance r tag fields) r
      have hlearned : Twins (w'.heap.push (.content (.fields tag fields)))
          (w'.withInstance r tag fields).registries
          (({w' with registries := rs} : World).withInstance r tag fields).registries :=
        (ht.registries.later hpush.before).modify r fun a b htwin =>
          htwin.learn (by simp [canonicalPath]) (under_push w' tag fields) (made_push tag hin')
      have honward : w'.Onward {w'.push (.content (.fields tag fields)) with registries := rs₁} :=
        hpush.trans (onward_of_eq rfl rfl rfl rfl rfl rfl)
      refine ⟨.ok (.inst w'.nextObject),
        {w'.push (.content (.fields tag fields)) with registries := rs₁}, rs₂, ?_, ?_,
        ⟨ht.fit.onward honward, hlearned.swept hsweeps hsweeps'⟩, honward, ?_⟩
      · rw [change_apply, heq]
        exact Prod.ext rfl hcount
      · rw [change_apply, heq', ← hpath]
        exact Prod.ext rfl hcount'
      · rintro v ⟨⟩
        exact ⟨_, rfl, Heap.proper_inst hfresh⟩

/-! ### Declarations -/

/-- Twins stay twins when both give out an id. -/
theorem steady_update (r : RegistryId) {change : Registry → Registry} {f : World → α × World}
    (htwin : ∀ h a b, Registry.Twin h a b → Registry.Twin h (change a) (change b))
    (hf : ∀ w, (f w).2 = {w with serials := w.serials + 1}.updateRegistry r change)
    (hsame : ∀ w rs, w.Twin rs → (f {w with registries := rs}).1 = (f w).1) :
    (Run.change f).Steady (fun _ _ => True) w := by
  intro w' rs ho ht
  have ho' : w'.Onward (f w').2 := by
    rw [hf]
    exact onward_of_eq rfl rfl rfl rfl rfl rfl
  refine ⟨.ok (f w').1, (f w').2, rs.modify r change, rfl, ?_, ⟨ht.fit.onward ho', ?_⟩, ho',
    fun _ _ => trivial⟩
  · rw [change_apply, hsame w' rs ht, hf, hf]
    rfl
  · rw [hf]
    exact ht.registries.modify r (htwin w'.heap)

/-- The next tag of a registry. -/
def newTag (r : RegistryId) (owner : UInt32) (spec : VariantSpec) (w : World) : Tag × World :=
  (⟨w.serials, ((w.registries[r]?).map (·.nextTag)).getD 0, spec.name, spec.fields, owner⟩,
    w.withTag r)

theorem steady_newTag (r : RegistryId) (owner : UInt32) (spec : VariantSpec) :
    (Run.change (newTag r owner spec)).Steady (fun _ _ => True) w := by
  refine steady_update r (fun h a b ht => ?_) (fun _ => rfl) fun w rs ht => ?_
  · exact ⟨⟨ht.left.retention, ht.left.distinct, ht.left.weak, ht.left.made⟩,
      ⟨ht.right.retention, ht.right.distinct, ht.right.weak, ht.right.made⟩, ht.maxDepth,
      congrArg (· + 1) ht.nextTag, ht.nextData, ht.living⟩
  · rcases ht.registries.cases r with ⟨ha, hb⟩ | ⟨a, b, ha, hb, htwin⟩
    · simp [newTag, ha, hb]
    · simp [newTag, ha, hb, htwin.nextTag]

theorem change_addVariant (r : RegistryId) (owner : UInt32) (spec : VariantSpec) :
    Run.change (World.addVariant r owner spec) = (do
      let tag ← Run.change (newTag r owner spec)
      if tag.isSingleton then do
        let v ← Run.change (World.canonicalize r tag [])
        pure ⟨tag, v.object?, r⟩
      else pure ⟨tag, none, r⟩) := by
  funext w
  have heq : w.addVariant r owner spec =
      if (newTag r owner spec w).1.isSingleton then
        (⟨(newTag r owner spec w).1,
          ((newTag r owner spec w).2.canonicalize r (newTag r owner spec w).1 []).1.object?, r⟩,
          ((newTag r owner spec w).2.canonicalize r (newTag r owner spec w).1 []).2)
      else (⟨(newTag r owner spec w).1, none, r⟩, (newTag r owner spec w).2) := rfl
  simp only [change_apply, bind_apply, heq]
  split <;> rfl

theorem steady_addVariant (r : RegistryId) (owner : UInt32) (spec : VariantSpec) :
    (Run.change (World.addVariant r owner spec)).Steady
      (fun w v => ∀ id, v.singleton? = some id → w.heap.Proper (.inst id)) w := by
  rw [change_addVariant]
  refine (steady_newTag r owner spec).bind fun w₁ tag _ _ => ?_
  split
  · refine (steady_canonicalize r tag (by simp [Has])).bind fun w₂ v _ hv => ?_
    obtain ⟨id, rfl, hproper⟩ := hv
    refine steady_pure fun w₃ ho id' hid => ?_
    cases hid
    exact hproper.extends ho.extends_
  · exact steady_pure (by simp)

theorem steady_addVariants (r : RegistryId) (owner : UInt32) (specs : List VariantSpec) :
    (Run.change (World.addVariants r owner specs)).Steady
      (fun w vs => ∀ v ∈ vs, ∀ id, v.singleton? = some id → w.heap.Proper (.inst id)) w := by
  induction specs generalizing w with
  | nil => exact steady_pure (by simp)
  | cons spec rest ih =>
    have heq : Run.change (World.addVariants r owner (spec :: rest)) = (do
        let v ← Run.change (World.addVariant r owner spec)
        let vs ← Run.change (World.addVariants r owner rest)
        pure (v :: vs)) := rfl
    rw [heq]
    refine (steady_addVariant r owner spec).bind fun w₁ v _ hv => ih.bind fun w₂ vs ho hvs => ?_
    refine steady_pure fun w₃ ho' => List.forall_mem_cons.mpr ⟨fun id hid => ?_, fun u hu id hid => ?_⟩
    · exact (hv id hid).extends (ho.trans ho').extends_
    · exact (hvs u hu id hid).extends ho'.extends_

/-- The next id of data of a registry, with the serial of the declaration. -/
def newData (r : RegistryId) (w : World) : (UInt32 × Nat) × World :=
  ((((w.registries[r]?).map (·.nextData)).getD 0, w.serials), w.withData r)

theorem steady_newData (r : RegistryId) : (Run.change (newData r)).Steady (fun _ _ => True) w := by
  refine steady_update r (fun h a b ht => ?_) (fun _ => rfl) fun w rs ht => ?_
  · exact ⟨⟨ht.left.retention, ht.left.distinct, ht.left.weak, ht.left.made⟩,
      ⟨ht.right.retention, ht.right.distinct, ht.right.weak, ht.right.made⟩, ht.maxDepth,
      ht.nextTag, congrArg (· + 1) ht.nextData, ht.living⟩
  · rcases ht.registries.cases r with ⟨ha, hb⟩ | ⟨a, b, ha, hb, htwin⟩
    · simp [newData, ha, hb]
    · simp [newData, ha, hb, htwin.nextData]

/-- A declaration comes out the same, and the instances of its variants are in hand. -/
theorem steady_declare (r : RegistryId) (name : String) {base? : Option Data}
    (specs : List VariantSpec) (hbase : ∀ b, base? = some b → w.Has b.singletons) :
    (declare r name base? specs).Steady (fun w d => w.Has d.singletons) w := by
  have heq : Run.change (World.addData r name base? specs) = (do
      let (id, serial) ← Run.change (newData r)
      let own ← Run.change (World.addVariants r id specs)
      pure ⟨serial, id, name, (base?.map Data.variants).getD [] ++ own,
        (base?.map fun b => b.asAncestor :: b.ancestors).getD []⟩) := rfl
  have hcheck : (Run.lift (checkVariants ((base?.map Data.variantNames).getD []) specs)).Steady
      (fun _ _ => True) w := steady_lift fun _ _ _ _ => trivial
  unfold declare
  rw [heq]
  refine hcheck.bind fun w₁ _ ho₁ _ => ?_
  refine (steady_newData r).bind fun w₂ new ho₂ _ => ?_
  refine (steady_addVariants r _ specs).bind fun w₃ own ho₃ hown => ?_
  refine steady_pure fun w₄ ho₄ v hv => ?_
  obtain ⟨x, hx, hid⟩ := List.mem_filterMap.mp hv
  rcases List.mem_append.mp hx with hx | hx
  · cases base? with
    | none => cases hx
    | some b =>
      have hin := (hbase b rfl).onward (((ho₁.trans ho₂).trans ho₃).trans ho₄)
      exact hin v (List.mem_filterMap.mpr ⟨x, hx, hid⟩)
  · obtain ⟨id, hsingle, rfl⟩ := Option.map_eq_some_iff.mp hid
    exact (hown x hx id hsingle).extends ho₄.extends_

end Run

end OpenVariants

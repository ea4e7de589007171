import OpenVariants.Proofs.Holder

/-! Which variant an instance was made through.

A construction makes an instance, under the next number and with the tag of its
variant, or it gives one that is there and changes nothing. So the step that made an
instance says through which variant it did (`Holder.Makes`): a construction, or a
declaration whose variant without fields has the new instance for its singleton. Once
tag ids start over, a later variant of one declaration may get the singleton of an
earlier one; the maker is then the first. Every living instance has a maker, and the
tag of the maker is its tag (`Holder.Reachable.exists_maker`, `Holder.MadeThrough.tag`). -/
namespace OpenVariants

/-- The first of some variants that has an instance for its singleton. -/
def makerAmong? (variants : List Variant) (id : ObjectId) : Option Variant :=
  variants.find? (·.singleton? == some id)

namespace World

variable {declared : List (RegistryId × Tag)} {w : World}

/-- Construction makes an instance of the tag, or gives a living one that has the path
and changes nothing. -/
theorem Canonical.canonicalize_cases (hc : w.Canonical declared) {r : RegistryId} {tag : Tag}
    (ht : (r, tag) ∈ declared) (fields : List Value) :
    ((w.canonicalize r tag fields).1 = .inst w.heap.size ∧
      (w.canonicalize r tag fields).2.heap = w.heap.push (.content (.fields tag fields))) ∨
    ∃ x tag' values, w.canonicalize r tag fields = (x, w) ∧
      w.heap.instance? x = some (tag', values) ∧ (r, tag') ∈ declared ∧
      canonicalPath tag' values = canonicalPath tag fields := by
  obtain ⟨reg, hreg⟩ : ∃ reg, w.registries[r]? = some reg :=
    ⟨_, Array.getElem?_eq_getElem (hc.tags _ ht).1⟩
  have hk := (hc.registries r reg hreg).1
  rw [canonicalize_eq hreg hk.retention]
  cases hfound : reg.canonical.root.get? w.heap.alive (canonicalPath tag fields) with
  | some x =>
    obtain ⟨tag', values, hinst, ht', hpath⟩ := hk.get? hfound
    exact .inr ⟨x, tag', values, rfl, hinst, ht', hpath⟩
  | none => exact .inl ⟨rfl, (countFresh_swept (w.withInstance r tag fields) r).heap⟩

/-- A new variant without fields makes its instance, unless the ids of tags are used up. -/
theorem Canonical.addVariant_cases (hc : w.Canonical declared) {r : RegistryId}
    (hr : r < w.registries.size) (owner : UInt32) (spec : VariantSpec) {v : Variant} {w' : World}
    (hadd : w.addVariant r owner spec = (v, w')) :
    (v.singleton? = some w.heap.size ∧ w'.heap = w.heap.push (.content (.fields v.tag []))) ∨
    (w'.heap = w.heap ∧ ∀ id, v.singleton? = some id → id < w.heap.size ∧
      UInt32.size ≤ (tagsOf (declared ++ [(r, v.tag)]) r).length) := by
  obtain ⟨reg, hreg⟩ : ∃ reg, w.registries[r]? = some reg := ⟨_, Array.getElem?_eq_getElem hr⟩
  obtain ⟨tag, hserial, hid, -, heq⟩ := addVariant_eq hreg owner spec
  have htag : (w.withTag r).Canonical (declared ++ [(r, tag)]) := hc.withTag hreg hserial hid
  have hmem : (r, tag) ∈ declared ++ [(r, tag)] := by simp
  rw [heq] at hadd
  split at hadd
  · cases hadd
    rcases htag.canonicalize_cases hmem [] with ⟨hx, hheap⟩ | ⟨x, tag', values, hx, hinst, ht', hpath⟩
    · exact .inl ⟨by rw [hx]; rfl, hheap⟩
    · rw [hx]
      obtain ⟨id, rfl, ho⟩ := Heap.instance?_eq_some.mp hinst
      refine .inr ⟨rfl, fun id' hid' => ?_⟩
      cases hid'
      refine ⟨Heap.lt_size ho, Nat.le_of_not_lt fun hcount => ?_⟩
      -- With ids to spare the tag would be that of an older instance, yet it is new.
      simp only [canonicalPath, List.map_nil, List.cons.injEq, Key.tag.injEq] at hpath
      obtain ⟨r', -, hold, -⟩ := hc.instances id tag' values ho
      have hlt : tag'.serial < w.serials := (hc.tags _ hold).2
      rw [htag.tag_of_id hcount ht' hmem hpath.1, hserial] at hlt
      exact Nat.lt_irrefl _ hlt
  · cases hadd
    exact .inr ⟨rfl, fun id hid' => by cases hid'⟩

/-- The variants of a declaration made just the new objects, each its own. -/
theorem Canonical.object?_addVariants (hc : w.Canonical declared) {r : RegistryId}
    (hr : r < w.registries.size) (owner : UInt32) (specs : List VariantSpec) {id : ObjectId}
    (hid : w.heap.size ≤ id) (o : Object) :
    (w.addVariants r owner specs).2.heap.object? id = some o ↔
      ∃ u, makerAmong? (w.addVariants r owner specs).1 id = some u ∧
        o = .content (.fields u.tag []) := by
  induction specs generalizing declared w with
  | nil =>
    constructor
    · exact fun ho => absurd (Heap.lt_size ho) (Nat.not_lt.mpr hid)
    · rintro ⟨u, hu, -⟩
      cases hu
  | cons spec rest ih =>
    obtain ⟨hfirst, -⟩ := hc.addVariant hr owner spec
    obtain ⟨hrest, -⟩ := hfirst.canonical.addVariants (hfirst.size ▸ hr) owner rest
    simp only [World.addVariants]
    obtain ⟨v, w₁, hadd⟩ : ∃ v w₁, w.addVariant r owner spec = (v, w₁) := ⟨_, _, rfl⟩
    rw [hadd] at hfirst hrest ⊢
    have hlater := fun hid' => ih hfirst.canonical (hfirst.size ▸ hr) hid'
    rcases hc.addVariant_cases hr owner spec hadd with ⟨hv, hheap⟩ | ⟨hheap, hv⟩
    · by_cases hnext : id = w.heap.size
      · -- This is the object that the first variant made.
        have hmaker : makerAmong? (v :: (w₁.addVariants r owner rest).1) id = some v :=
          List.find?_cons_of_pos (by simp [hv, hnext])
        have hmade : w₁.heap.object? id = some (.content (.fields v.tag [])) := by
          rw [hheap, Heap.object?_push, if_pos hnext]
        rw [hrest.extends_ id _ hmade, hmaker]
        constructor
        · exact fun ho => ⟨v, rfl, (Option.some.inj ho).symm⟩
        · rintro ⟨u, hu, ho⟩
          rw [ho, ← Option.some.inj hu]
      · have hother : makerAmong? (v :: (w₁.addVariants r owner rest).1) id =
            makerAmong? (w₁.addVariants r owner rest).1 id :=
          List.find?_cons_of_neg (by simpa [hv] using Ne.symm hnext)
        rw [hother]
        have hnext' : w.heap.size + 1 ≤ id := Nat.lt_of_le_of_ne hid (Ne.symm hnext)
        exact hlater (by rwa [hheap, Heap.size_push])
    · have hother : makerAmong? (v :: (w₁.addVariants r owner rest).1) id =
          makerAmong? (w₁.addVariants r owner rest).1 id := by
        refine List.find?_cons_of_neg ?_
        rw [beq_iff_eq]
        exact fun hs => Nat.not_lt.mpr hid (hv id hs).1
      rw [hother]
      exact hlater (hheap ▸ hid)

/-- With ids of tags to spare, a declaration makes the singletons of its variants. -/
theorem Canonical.addVariants_maker (hc : w.Canonical declared) {r : RegistryId}
    (hr : r < w.registries.size) (owner : UInt32) (specs : List VariantSpec)
    (hcount : (tagsOf (declared ++ (w.addVariants r owner specs).1.map fun v => (r, v.tag)) r).length <
      UInt32.size)
    {v : Variant} (hv : v ∈ (w.addVariants r owner specs).1) {id : ObjectId}
    (hid : v.singleton? = some id) :
    w.heap.size ≤ id ∧ makerAmong? (w.addVariants r owner specs).1 id = some v := by
  induction specs generalizing declared w with
  | nil => cases hv
  | cons spec rest ih =>
    obtain ⟨hfirst, -⟩ := hc.addVariant hr owner spec
    simp only [World.addVariants] at hcount hv ⊢
    obtain ⟨u, w₁, hadd⟩ : ∃ u w₁, w.addVariant r owner spec = (u, w₁) := ⟨_, _, rfl⟩
    rw [hadd] at hfirst hcount hv ⊢
    rcases List.mem_cons.mp hv with rfl | hv
    · rcases hc.addVariant_cases hr owner spec hadd with ⟨hv', -⟩ | ⟨-, hv'⟩
      · rw [hid] at hv'
        cases hv'
        exact ⟨Nat.le_refl _, List.find?_cons_of_pos (by simp [hid])⟩
      · have hfew : (tagsOf (declared ++ [(r, v.tag)]) r).length < UInt32.size := by
          have hfront := List.prefix_append (declared ++ [(r, v.tag)])
            ((w₁.addVariants r owner rest).1.map fun v => (r, v.tag))
          rw [List.append_assoc, List.singleton_append] at hfront
          exact Nat.lt_of_le_of_lt (tagsOf_length_le hfront r) hcount
        exact absurd hfew (Nat.not_lt.mpr (hv' id hid).2)
    · have hcount' : (tagsOf (declared ++ [u].map (fun v => (r, v.tag)) ++
          (w₁.addVariants r owner rest).1.map fun v => (r, v.tag)) r).length < UInt32.size := by
        simpa using hcount
      obtain ⟨hle, hmaker⟩ := ih hfirst.canonical (hfirst.size ▸ hr) hcount' hv
      refine ⟨Nat.le_trans hfirst.before.size hle, ?_⟩
      rw [← hmaker]
      refine List.find?_cons_of_neg ?_
      rw [beq_iff_eq]
      intro hs
      -- What the first variant has was there before.
      have hp := ((hfirst.variants u List.mem_cons_self).inst id hs).1
      exact Nat.not_lt.mpr hle (hp.lt_size rfl)

end World

namespace Holder

/-- A step makes an instance through a variant. -/
inductive Makes (k : Holder) (u : Variant) (id : ObjectId) : Holder → Prop
  | construct (form : Form) (w : World) (hu : k.Has u)
    (hin : ∀ a ∈ form.values, k.world.heap.Proper a)
    (hrun : form.run u k.world = (.ok (.inst id), w)) (hnew : k.world.heap.size ≤ id) :
    Makes k u id (k.withWorld w)
  | declare (r : RegistryId) (name : String) (base? : Option Data) (specs : List VariantSpec)
    (d : Data) (w : World) (hr : r < k.world.registries.size)
    (hb : ∀ b, base? = some b → b ∈ k.data)
    (hrun : OpenVariants.declare r name base? specs k.world = (.ok d, w))
    (hu : makerAmong? (d.own base?) id = some u) (hnew : k.world.heap.size ≤ id) :
    Makes k u id (k.withData r base? d w)

/-- An instance was made through a variant at some step on the way. -/
def MadeThrough (k : Holder) (u : Variant) (id : ObjectId) : Prop :=
  ∃ k₁ k₂, k₁.Reachable ∧ Makes k₁ u id k₂ ∧ Steps k₂ k

variable {k k' : Holder}

/-- A construction makes an instance of its variant, or leaves the world as it is. -/
theorem Sound.run_cases (hs : k.Sound) {u : Variant} {form : Form} {x : Value} {w : World}
    (hu : k.Has u) (hrun : form.run u k.world = (.ok x, w)) :
    (x = .inst k.world.heap.size ∧
      ∃ values, w.heap = k.world.heap.push (.content (.fields u.tag values))) ∨
    (w = k.world ∧ ∃ id, x = .inst id ∧ id < k.world.heap.size) := by
  have hgood := hs.has hu
  rcases Form.run_ok hrun with ⟨values, -, -, hcon⟩ | ⟨-, rfl, hsingle⟩
  · rcases hs.client.world.canonicalize_cases hgood.known values with
      ⟨hx, hheap⟩ | ⟨x', tag', values', hx, hinst, -, -⟩
    · rw [hcon] at hx hheap
      exact .inl ⟨hx, values, hheap⟩
    · rw [hcon] at hx
      cases hx
      obtain ⟨id, rfl, ho⟩ := Heap.instance?_eq_some.mp hinst
      exact .inr ⟨rfl, id, rfl, Heap.lt_size ho⟩
  · unfold Variant.singleton at hsingle
    cases hid : u.singleton? with
    | none => simp [hid] at hsingle
    | some id =>
      simp only [hid, Except.ok.injEq] at hsingle
      exact .inr ⟨rfl, id, hsingle.symm, (hgood.inst id hid).1.lt_size rfl⟩

/-- What is new after a declaration are the singletons of its variants. -/
theorem Sound.declare_object (hs : k.Sound) {r : RegistryId} {name : String} {base? : Option Data}
    {specs : List VariantSpec} {d : Data} {w : World} (hr : r < k.world.registries.size)
    (hrun : OpenVariants.declare r name base? specs k.world = (.ok d, w)) {id : ObjectId}
    (hid : k.world.heap.size ≤ id) (o : Object) :
    w.heap.object? id = some o ↔
      ∃ u, makerAmong? (d.own base?) id = some u ∧ o = .content (.fields u.tag []) := by
  obtain ⟨-, owner, hown, -, rfl⟩ := World.declare_ok hrun
  have hswept := World.withData_swept k.world r
  rw [hown]
  exact (hs.client.world.swept hswept).object?_addVariants (hswept.size ▸ hr) owner specs hid o

theorem Makes.step {u : Variant} {id : ObjectId} (hm : Makes k u id k') (hs : k.Sound) :
    Step k k' := by
  cases hm with
  | construct form w hu hin hrun hnew => exact hs.construct hu hin hrun
  | declare r name base? specs d w hr hb hrun hu hnew => exact hs.declare hr hb hrun

/-- What a step made has the tag of the variant. -/
theorem Makes.object {u : Variant} {id : ObjectId} (hm : Makes k u id k') (hs : k.Sound) :
    ∃ values, k'.world.heap.object? id = some (.content (.fields u.tag values)) := by
  cases hm with
  | construct form w hu hin hrun hnew =>
    rcases hs.run_cases hu hrun with ⟨hx, values, hheap⟩ | ⟨-, i, hx, hlt⟩
    · cases hx
      refine ⟨values, ?_⟩
      change w.heap.object? _ = _
      rw [hheap, Heap.object?_push, if_pos rfl]
    · cases hx
      exact absurd hlt (Nat.not_lt.mpr hnew)
  | declare r name base? specs d w hr hb hrun hu hnew =>
    exact ⟨[], (hs.declare_object hr hrun hnew _).mpr ⟨u, hu, rfl⟩⟩

/-- An instance that is new after a step was made by it. -/
theorem Step.maker (hstep : Step k k') (hs : k.Sound) {id : ObjectId} {tag : Tag}
    {values : List Value} (hnew : k.world.heap.size ≤ id)
    (ho : k'.world.heap.object? id = some (.content (.fields tag values))) :
    ∃ u, Makes k u id k' ∧ u.tag = tag := by
  have hold : ∀ h : Heap, (∀ id o, h.object? id = some o → k.world.heap.object? id = some o) →
      h.object? id ≠ some (.content (.fields tag values)) :=
    fun h hh ho => Nat.not_lt.mpr hnew (Heap.lt_size (hh id _ ho))
  -- A construction through any variant in hand.
  have hconstruct : ∀ (u : Variant) (form : Form) (x : Value) (w : World), k.Has u →
      (∀ a ∈ form.values, k.world.heap.Proper a) → form.run u k.world = (.ok x, w) →
      w.heap.object? id = some (.content (.fields tag values)) →
      ∃ u, Makes k u id (k.withWorld w) ∧ u.tag = tag := by
    intro u form x w hu hin hrun ho
    rcases hs.run_cases hu hrun with ⟨rfl, values', hheap⟩ | ⟨rfl, -⟩
    · rw [hheap, Heap.object?_push] at ho
      split at ho
      · next hid =>
        cases ho
        exact ⟨u, .construct form w hu hin (hid ▸ hrun) hnew, rfl⟩
      · exact absurd ho (hold k.world.heap fun _ _ h => h)
    · exact absurd ho (hold k.world.heap fun _ _ h => h)
  -- Another object under the next number is no instance.
  have hpush : ∀ o : Object, (∀ tag values, o ≠ .content (.fields tag values)) →
      (k.world.heap.push o).object? id ≠ some (.content (.fields tag values)) := by
    intro o hplain ho
    rw [Heap.object?_push] at ho
    split at ho
    · exact hplain tag values (Option.some.inj ho)
    · exact hold k.world.heap (fun _ _ h => h) ho
  cases hstep with
  | client c h hheld =>
    cases h with
    | declare r name base? specs d w hr hb hrun =>
      obtain ⟨u, hu, hobj⟩ := (hs.declare_object hr hrun hnew _).mp ho
      cases hobj
      exact ⟨u, .declare r name base? specs d w hr hb hrun hu hnew, rfl⟩
    | construct d v form x w hd hv hin hrun =>
      exact hconstruct v form x w (.inr ⟨d, hd, hv⟩) hin hrun ho
    | content content hplain hin =>
      exact absurd ho (hpush _ fun tag values h => hplain tag values (Object.content.inj h))
    | function label body => exact absurd ho (hpush _ (by simp))
    | lazy body => exact absurd ho (hpush _ (by simp))
    | release heap data hd hr => exact absurd ho (hold heap hr.object)
    | registry config => exact absurd ho (hold k.world.heap fun _ _ h => h)
    | purge r =>
      have hheap : (k.world.sweep r).heap = k.world.heap := rfl
      exact absurd ho (hold _ fun _ _ h => hheap ▸ h)
    | other w hheap hregistries hserials => exact absurd ho (hold w.heap fun _ _ h => hheap ▸ h)
  | construct v form x w hv hin hrun => exact hconstruct v form x w (.inl hv) hin hrun ho
  | clone | letGo => exact absurd ho (hold k.world.heap fun _ _ h => h)

/-- The maker's tag is the instance's, as long as that lives. -/
theorem MadeThrough.tag {u : Variant} {id : ObjectId} (hm : k.MadeThrough u id) {tag : Tag}
    {values : List Value} (ho : k.world.heap.object? id = some (.content (.fields tag values))) :
    u.tag = tag := by
  obtain ⟨k₁, k₂, hk₁, hmakes, hsteps⟩ := hm
  have hs₁ := hk₁.sound
  obtain ⟨values₂, ho₂⟩ := hmakes.object hs₁
  have hbefore := (hs₁.step (hmakes.step hs₁)).stepsBefore hsteps
  rw [hbefore.object id _ (Heap.lt_size ho₂) ho] at ho₂
  cases ho₂
  rfl

/-- Every living instance was made through some variant. -/
theorem Reachable.exists_maker (hk : k.Reachable) {id : ObjectId} {tag : Tag} {values : List Value}
    (ho : k.world.heap.object? id = some (.content (.fields tag values))) :
    ∃ u, k.MadeThrough u id ∧ u.tag = tag := by
  induction hk with
  | refl => cases Heap.lt_size ho
  | @tail k k' hsteps hstep ih =>
    have hs := Reachable.sound hsteps
    by_cases hold : id < k.world.heap.size
    · obtain ⟨u, ⟨k₁, k₂, hk₁, hmakes, hlater⟩, htag⟩ := ih ((hs.before hstep).object id _ hold ho)
      exact ⟨u, ⟨k₁, k₂, hk₁, hmakes, hlater.tail hstep⟩, htag⟩
    · obtain ⟨u, hmakes, htag⟩ := hstep.maker hs (Nat.le_of_not_lt hold) ho
      exact ⟨u, ⟨k, k', hsteps, hmakes, .refl⟩, htag⟩

end Holder

end OpenVariants

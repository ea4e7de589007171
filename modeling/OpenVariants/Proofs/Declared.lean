import OpenVariants.Proofs.Canonical

/-! Declarations and what they keep.

A declaration adds tags to its registry, each with a new serial and the next id, and
makes the instances of the variants without fields. What holds of a variant when it is
declared holds as long as its instance lives, whatever is declared later
(`Variant.Good`). -/
namespace OpenVariants

/-- A variant as its declaration left it. -/
structure Variant.Good (declared : List (RegistryId × Tag)) (h : Heap) (v : Variant) : Prop where
  known : (v.registry, v.tag) ∈ declared
  singleton : v.singleton?.isSome = v.tag.isSingleton
  inst : ∀ id, v.singleton? = some id → h.Proper (.inst id) ∧
    ((World.tagsOf declared v.registry).length < UInt32.size → h.instance? (.inst id) = some (v.tag, []))

/-- Declared data: its variants differ in name. -/
structure Data.Good (declared : List (RegistryId × Tag)) (h : Heap) (d : Data) : Prop where
  variants : ∀ v ∈ d.variants, v.Good declared h
  names : (d.variants.map Variant.name).Nodup

section Later
variable {declared declared' : List (RegistryId × Tag)} {h h' : Heap}

theorem tagsOf_length_le (hd : declared <+: declared') (r : RegistryId) :
    (World.tagsOf declared r).length ≤ (World.tagsOf declared' r).length := by
  obtain ⟨rest, rfl⟩ := hd
  simp [World.tagsOf]

/-- A variant stays as it was while its instance lives. -/
theorem Variant.Good.later {v : Variant} (hv : v.Good declared h) (hd : declared <+: declared')
    (hb : h.Before h') (hl : ∀ id, v.singleton? = some id → h'.holds (.inst id) = true) :
    v.Good declared' h' where
  known := hd.subset hv.known
  singleton := hv.singleton
  inst id hid := by
    obtain ⟨hp, hinst⟩ := hv.inst id hid
    refine ⟨hp.later hb (hl id hid), fun hcount => ?_⟩
    have hi := hinst (Nat.lt_of_le_of_lt (tagsOf_length_le hd _) hcount)
    rw [Heap.instance?_inst] at hi ⊢
    exact hb.object?_of_alive hi (Heap.holds_iff.mp (hl id hid) id rfl)

theorem Variant.Good.extends {v : Variant} (hv : v.Good declared h) (hd : declared <+: declared')
    (hb : h.Before h') (he : h.Extends h') : v.Good declared' h' :=
  hv.later hd hb fun id hid => ((hv.inst id hid).1.extends he).holds

theorem Data.Good.later {d : Data} (hg : d.Good declared h) (hd : declared <+: declared')
    (hb : h.Before h') (hl : ∀ v ∈ d.singletons, h'.holds v = true) : d.Good declared' h' where
  variants v hv := by
    refine (hg.variants v hv).later hd hb fun id hid => hl _ ?_
    exact List.mem_filterMap.mpr ⟨v, hv, by rw [hid]; rfl⟩
  names := hg.names

theorem Data.Good.extends {d : Data} (hg : d.Good declared h) (hd : declared <+: declared')
    (hb : h.Before h') (he : h.Extends h') : d.Good declared' h' :=
  ⟨fun v hv => (hg.variants v hv).extends hd hb he, hg.names⟩

/-- The singletons of held data are in hand. -/
theorem Data.Good.singletons_proper {d : Data} (hg : d.Good declared h) :
    ∀ v ∈ d.singletons, h.Proper v := by
  intro v hv
  obtain ⟨x, hx, hid⟩ := List.mem_filterMap.mp hv
  cases hs : x.singleton? with
  | none => simp [hs] at hid
  | some id =>
    simp only [hs, Option.map_some, Option.some.injEq] at hid
    exact hid ▸ ((hg.variants x hx).inst id hs).1

end Later

/-! ### Specifications -/

/-- What is checked of the first variant of a specification. -/
theorem checkVariants_cons {seen : List String} {spec : VariantSpec} {rest : List VariantSpec}
    (h : checkVariants seen (spec :: rest) = .ok ()) :
    spec.name ∉ seen ∧ checkFields spec.name [] spec.fields = .ok () ∧
      checkVariants (spec.name :: seen) rest = .ok () := by
  rw [checkVariants] at h
  split at h
  · cases h
  · split at h
    · cases h
    · next hseen =>
      cases hf : checkFields spec.name [] spec.fields with
      | error f => simp [hf] at h
      | ok u => exact ⟨by simpa using hseen, rfl, by simpa only [hf] using h⟩

/-- The variants of a good specification differ in name, also from those in `seen`. -/
theorem checkVariants_ok {seen : List String} {specs : List VariantSpec}
    (h : checkVariants seen specs = .ok ()) :
    (specs.map (·.name)).Nodup ∧ ∀ spec ∈ specs, spec.name ∉ seen := by
  induction specs generalizing seen with
  | nil => simp
  | cons spec rest ih =>
    obtain ⟨hseen, -, hrest⟩ := checkVariants_cons h
    obtain ⟨hnodup, hnew⟩ := ih hrest
    refine ⟨?_, ?_⟩
    · rw [List.map_cons, List.nodup_cons]
      refine ⟨fun hmem => ?_, hnodup⟩
      obtain ⟨spec', hs', hname⟩ := List.mem_map.mp hmem
      exact hnew spec' hs' (by simp [hname])
    · intro spec' hs'
      rcases List.mem_cons.mp hs' with rfl | hs'
      · exact hseen
      · exact fun hmem => hnew spec' hs' (List.mem_cons_of_mem _ hmem)

/-! ### Declaring -/

namespace World

variable {declared : List (RegistryId × Tag)} {w : World}

theorem tagsOf_append (declared : List (RegistryId × Tag)) (r i : RegistryId) (tag : Tag) :
    tagsOf (declared ++ [(r, tag)]) i =
      if i = r then tagsOf declared i ++ [tag] else tagsOf declared i := by
  by_cases h : i = r
  · simp [tagsOf, h]
  · simp [tagsOf, h, Ne.symm h]

/-- A world with the next tag of a registry given out. -/
def withTag (w : World) (r : RegistryId) : World :=
  {w with serials := w.serials + 1}.updateRegistry r fun reg => {reg with nextTag := reg.nextTag + 1}

theorem Knows.subset {declared' : List (RegistryId × Tag)} {h : Heap} {r : RegistryId}
    {reg : Registry} (hk : Knows declared h r reg) (hd : declared ⊆ declared') :
    Knows declared' h r reg := by
  refine { hk with stored := fun path s hs => ?_ }
  obtain ⟨id, rfl, hlt, hlive⟩ := hk.stored path s hs
  refine ⟨id, rfl, hlt, fun o ho => ?_⟩
  obtain ⟨tag, values, ho', ht, hpath⟩ := hlive o ho
  exact ⟨tag, values, ho', hd ht, hpath⟩

theorem Numbers.succ {r : RegistryId} {reg : Registry} {tag : Tag} (hn : Numbers declared r reg)
    (hid : tag.id = reg.nextTag) :
    Numbers (declared ++ [(r, tag)]) r {reg with nextTag := reg.nextTag + 1} where
  next := by
    rw [tagsOf_append, if_pos rfl, List.length_append, List.length_singleton, UInt32.ofNat_add,
      ← hn.next]
    rfl
  ids j t ht := by
    rw [tagsOf_append, if_pos rfl, List.getElem?_append] at ht
    split at ht
    · exact hn.ids j t ht
    · next hj =>
      have hlt : j - (tagsOf declared r).length < 1 := (List.getElem?_eq_some_iff.mp ht).1
      have hj' : j = (tagsOf declared r).length := by omega
      subst hj'
      simp only [Nat.sub_self, List.getElem?_cons_zero, Option.some.injEq] at ht
      rw [← ht, hid, hn.next]

/-- A new tag has a serial and an id of its own. -/
theorem Canonical.withTag (hc : w.Canonical declared) {r : RegistryId} {reg : Registry} {tag : Tag}
    (hreg : w.registries[r]? = some reg) (hserial : tag.serial = w.serials)
    (hid : tag.id = reg.nextTag) : (w.withTag r).Canonical (declared ++ [(r, tag)]) where
  heap := hc.heap
  registries i reg' hreg' := by
    rw [World.withTag, registries_updateRegistry] at hreg'
    split at hreg'
    · next hir =>
      subst hir
      rw [hreg] at hreg'
      cases hreg'
      obtain ⟨hk, hn⟩ := hc.registries i reg hreg
      exact ⟨⟨hk.retention, hk.distinct, (hk.subset (List.subset_append_left _ _)).stored⟩,
        hn.succ hid⟩
    · next hir =>
      obtain ⟨hk, hn⟩ := hc.registries i reg' hreg'
      refine ⟨hk.subset (List.subset_append_left _ _), ?_, ?_⟩
      · rw [tagsOf_append, if_neg hir]
        exact hn.next
      · rw [tagsOf_append, if_neg hir]
        exact hn.ids
  tags p hp := by
    simp only [World.withTag, updateRegistry, Array.size_modify]
    rcases List.mem_append.mp hp with hp | hp
    · exact ⟨(hc.tags p hp).1, Nat.lt_succ_of_lt (hc.tags p hp).2⟩
    · rw [List.mem_singleton.mp hp, hserial]
      exact ⟨(Array.getElem?_eq_some_iff.mp hreg).1, Nat.lt_succ_self _⟩
  serials p hp q hq hs := by
    rcases List.mem_append.mp hp with hp | hp <;> rcases List.mem_append.mp hq with hq | hq
    · exact hc.serials p hp q hq hs
    · rw [List.mem_singleton.mp hq, hserial] at hs
      exact absurd hs (Nat.ne_of_lt (hc.tags p hp).2)
    · rw [List.mem_singleton.mp hp, hserial] at hs
      exact absurd hs.symm (Nat.ne_of_lt (hc.tags q hq).2)
    · rw [List.mem_singleton.mp hp, List.mem_singleton.mp hq]
  instances id tag' values ho := by
    obtain ⟨i, reg', hi, hreg', hstored⟩ := hc.instances id tag' values ho
    refine ⟨i, if i = r then {reg' with nextTag := reg'.nextTag + 1} else reg',
      List.mem_append_left _ hi, ?_, ?_⟩
    · rw [World.withTag, registries_updateRegistry]
      change (if i = r then (w.registries[i]?).map _ else w.registries[i]?) = _
      rw [hreg']
      split <;> rfl
    · split <;> exact hstored

/-- What a part of a declaration does: it adds variants to a registry, and no living
object dies. -/
structure Declares (declared : List (RegistryId × Tag)) (w : World) (r : RegistryId)
    (own : List Variant) (w' : World) : Prop where
  canonical : w'.Canonical (declared ++ own.map fun v => (r, v.tag))
  extends_ : w.heap.Extends w'.heap
  before : w.heap.Before w'.heap
  size : w'.registries.size = w.registries.size
  variants : ∀ v ∈ own, v.Good (declared ++ own.map fun v => (r, v.tag)) w'.heap

/-- A variant gets the next serial and the next id of its registry, and if it has no
fields its instance. -/
theorem addVariant_eq {r : RegistryId} {reg : Registry} (hreg : w.registries[r]? = some reg)
    (owner : UInt32) (spec : VariantSpec) :
    ∃ tag : Tag, tag.serial = w.serials ∧ tag.id = reg.nextTag ∧ tag.name = spec.name ∧
      w.addVariant r owner spec =
        if tag.isSingleton then
          (⟨tag, ((w.withTag r).canonicalize r tag []).1.object?, r⟩,
            ((w.withTag r).canonicalize r tag []).2)
        else (⟨tag, none, r⟩, w.withTag r) := by
  refine ⟨⟨w.serials, reg.nextTag, spec.name, spec.fields, owner⟩, rfl, rfl, rfl, ?_⟩
  simp only [World.addVariant, hreg, Option.map_some, Option.getD_some]
  rfl

theorem Canonical.addVariant (hc : w.Canonical declared) {r : RegistryId}
    (hr : r < w.registries.size) (owner : UInt32) (spec : VariantSpec) :
    Declares declared w r [(w.addVariant r owner spec).1] (w.addVariant r owner spec).2 ∧
      (w.addVariant r owner spec).1.name = spec.name := by
  obtain ⟨reg, hreg⟩ : ∃ reg, w.registries[r]? = some reg := ⟨_, Array.getElem?_eq_getElem hr⟩
  obtain ⟨tag, hserial, hid, hname, heq⟩ := addVariant_eq hreg owner spec
  rw [heq]
  have htag : (w.withTag r).Canonical (declared ++ [(r, tag)]) := hc.withTag hreg hserial hid
  have hmem : (r, tag) ∈ declared ++ [(r, tag)] := by simp
  have hsize : (w.withTag r).registries.size = w.registries.size := by
    simp [World.withTag, updateRegistry]
  split
  · next hsingle =>
    have hnone : ∀ v ∈ ([] : List Value), (w.withTag r).heap.Proper v := by simp
    have hcon := htag.canonicalize hmem hnone
    obtain ⟨tag', values, hinst, ht', hpath⟩ := hcon.inst
    obtain ⟨id, hx, ho⟩ := Heap.instance?_eq_some.mp hinst
    refine ⟨⟨hcon.canonical, hcon.extends_, hcon.before, hcon.size.trans hsize, ?_⟩, hname⟩
    intro v hv
    cases List.mem_singleton.mp hv
    refine ⟨hmem, by simp [hx, Value.object?, hsingle], fun i hi => ?_⟩
    simp only [hx, Value.object?, Option.some.injEq] at hi
    subst hi
    refine ⟨Heap.proper_inst ho, fun hcount => ?_⟩
    simp only [canonicalPath, List.map_nil, List.cons.injEq, Key.tag.injEq, List.map_eq_nil_iff] at hpath
    rw [Heap.instance?_inst, ho, hcon.canonical.tag_of_id hcount ht' hmem hpath.1, hpath.2]
  · next hsingle =>
    refine ⟨⟨htag, Heap.Extends.refl _, Heap.Before.refl _, hsize, ?_⟩, hname⟩
    intro v hv
    cases List.mem_singleton.mp hv
    exact ⟨hmem, by simpa using hsingle, by simp⟩

theorem Declares.trans {r : RegistryId} {own own' : List Variant} {w' w'' : World}
    (hd : Declares declared w r own w')
    (hd' : Declares (declared ++ own.map fun v => (r, v.tag)) w' r own' w'') :
    Declares declared w r (own ++ own') w'' := by
  have happend : declared ++ (own ++ own').map (fun v => (r, v.tag)) =
      declared ++ own.map (fun v => (r, v.tag)) ++ own'.map (fun v => (r, v.tag)) := by simp
  refine ⟨happend ▸ hd'.canonical, hd.extends_.trans hd'.extends_, hd.before.trans hd'.before,
    hd'.size.trans hd.size, fun v hv => ?_⟩
  rw [happend]
  rcases List.mem_append.mp hv with hv | hv
  · exact (hd.variants v hv).extends (List.prefix_append _ _) hd'.before hd'.extends_
  · exact hd'.variants v hv

theorem Canonical.addVariants (hc : w.Canonical declared) {r : RegistryId}
    (hr : r < w.registries.size) (owner : UInt32) (specs : List VariantSpec) :
    Declares declared w r (w.addVariants r owner specs).1 (w.addVariants r owner specs).2 ∧
      (w.addVariants r owner specs).1.map Variant.name = specs.map (·.name) := by
  induction specs generalizing declared w with
  | nil =>
    refine ⟨⟨?_, Heap.Extends.refl _, Heap.Before.refl _, rfl, by simp [World.addVariants]⟩, rfl⟩
    simpa [World.addVariants] using hc
  | cons spec rest ih =>
    obtain ⟨hfirst, hname⟩ := hc.addVariant hr owner spec
    obtain ⟨hrest, hnames⟩ := ih hfirst.canonical (hfirst.size ▸ hr)
    exact ⟨hfirst.trans hrest, by simp only [World.addVariants, List.map_cons, hname, hnames]⟩

/-- A world with the next id of data given out. -/
def withData (w : World) (r : RegistryId) : World :=
  {w with serials := w.serials + 1}.updateRegistry r fun reg =>
    {reg with nextData := reg.nextData + 1}

theorem withData_swept (w : World) (r : RegistryId) : w.Swept (w.withData r) :=
  have h := swept_updateRegistry {w with serials := w.serials + 1} r
    (fun reg => {reg with nextData := reg.nextData + 1}) fun _ => ⟨rfl, .inl rfl⟩
  ⟨rfl, Nat.le_succ _, h.size, h.registries⟩

theorem declare_ok {r : RegistryId} {name : String} {base? : Option Data}
    {specs : List VariantSpec} {d : Data} {w' : World}
    (hrun : OpenVariants.declare r name base? specs w = (.ok d, w')) :
    checkVariants ((base?.map Data.variantNames).getD []) specs = .ok () ∧
      ∃ owner, d.own base? = ((w.withData r).addVariants r owner specs).1 ∧
        d.variants = ((base?.map Data.variants).getD []) ++ d.own base? ∧
        w' = ((w.withData r).addVariants r owner specs).2 := by
  simp only [OpenVariants.declare, Run.bind_apply, Run.lift_apply] at hrun
  cases hcheck : checkVariants ((base?.map Data.variantNames).getD []) specs with
  | error f =>
    rw [hcheck] at hrun
    cases hrun
  | ok u =>
    rw [hcheck] at hrun
    cases hrun
    refine ⟨rfl, ((w.registries[r]?).map (·.nextData)).getD 0, ?_, ?_, rfl⟩
    · simp only [Data.own, List.drop_left]
      rfl
    · simp only [Data.own, List.drop_left]

/-- A declaration is good, and no living object dies. -/
theorem Canonical.declare (hc : w.Canonical declared) {r : RegistryId}
    (hr : r < w.registries.size) {name : String} {base? : Option Data} {specs : List VariantSpec}
    {d : Data} {w' : World} (hb : ∀ b, base? = some b → b.Good declared w.heap)
    (hrun : OpenVariants.declare r name base? specs w = (.ok d, w')) :
    Declares declared w r (d.own base?) w' ∧
      d.Good (declared ++ (d.own base?).map fun v => (r, v.tag)) w'.heap := by
  obtain ⟨hcheck, owner, hown, hvariants, rfl⟩ := declare_ok hrun
  obtain ⟨hspecs, hnew⟩ := checkVariants_ok hcheck
  have hswept := withData_swept w r
  obtain ⟨hd, hnames⟩ := (hc.swept hswept).addVariants (hswept.size ▸ hr) owner specs
  rw [← hown] at hd hnames
  have hd' : Declares declared w r (d.own base?)
      ((w.withData r).addVariants r owner specs).2 :=
    ⟨hd.canonical, hd.extends_, hd.before, hd.size.trans hswept.size, hd.variants⟩
  refine ⟨hd', fun v hv => ?_, ?_⟩
  · rw [hvariants] at hv
    rcases List.mem_append.mp hv with hv | hv
    · cases base? with
      | none => cases hv
      | some b =>
        exact ((hb b rfl).variants v hv).extends (List.prefix_append _ _) hd'.before hd'.extends_
    · exact hd.variants v hv
  · rw [hvariants, List.map_append, hnames, List.nodup_append]
    refine ⟨?_, hspecs, ?_⟩
    · cases base? with
      | none => exact List.nodup_nil
      | some b => exact (hb b rfl).names
    · intro a ha b hb' hab
      subst hab
      obtain ⟨spec, hspec, rfl⟩ := List.mem_map.mp hb'
      apply hnew spec hspec
      cases base? with
      | none => cases ha
      | some b => exact ha

/-- A construction in any form through a variant of a declared tag. -/
theorem Canonical.constructs (hc : w.Canonical declared) {v : Variant} {form : Form} {x : Value}
    {w' : World} (ht : (v.registry, v.tag) ∈ declared) (hin : ∀ a ∈ form.values, w.heap.Proper a)
    (hrun : form.run v w = (.ok x, w')) :
    (∃ values, form.fields w.heap v = .ok values ∧
      Constructed declared w v.registry v.tag values x w') ∨
    (form = .unit ∧ w' = w ∧ v.singleton = .ok x) := by
  rcases Form.run_ok hrun with ⟨values, hf, -, hcon⟩ | hunit
  · have hgiven := hc.canonicalize ht (fields_proper hc.heap hin hf)
    rw [hcon] at hgiven
    exact .inl ⟨values, hf, hgiven⟩
  · exact .inr hunit

/-- What lives when a construction begins lives when it ends. -/
theorem Canonical.construct_extends (hc : w.Canonical declared) {v : Variant} {form : Form}
    {x : Value} {w' : World} (ht : (v.registry, v.tag) ∈ declared)
    (hin : ∀ a ∈ form.values, w.heap.Proper a) (hrun : form.run v w = (.ok x, w')) :
    w.heap.Extends w'.heap := by
  rcases hc.constructs ht hin hrun with ⟨_, _, hcon⟩ | ⟨_, rfl, _⟩
  · exact hcon.extends_
  · exact Heap.Extends.refl _

end World

/-! ### Runs -/

namespace Client

/-- The registries of a program's world are canonical, and the data it holds is good. -/
structure Sound (c : Client) : Prop where
  world : c.world.Canonical c.declared
  data : ∀ d ∈ c.data, d.Good c.declared c.world.heap

theorem sound_start : Sound {} where
  world := by
    refine ⟨fun id o ho => ?_, ?_, ?_, ?_, fun id tag values ho => ?_⟩
    · cases Heap.lt_size ho
    · simp
    · simp
    · simp
    · cases Heap.lt_size ho
  data := by simp

/-- A construction in any form from what is in hand. -/
theorem Sound.constructs {c : Client} (hs : c.Sound) {d : Data} {v : Variant} {form : Form}
    {x : Value} {w : World} (hd : d ∈ c.data) (hv : v ∈ d.variants)
    (hin : ∀ a ∈ form.values, c.world.heap.Proper a) (hrun : form.run v c.world = (.ok x, w)) :
    (∃ values, form.fields c.world.heap v = .ok values ∧
      World.Constructed c.declared c.world v.registry v.tag values x w) ∨
    (form = .unit ∧ w = c.world ∧ v.singleton = .ok x) :=
  hs.world.constructs ((hs.data d hd).variants v hv).known hin hrun

/-- One step keeps registries canonical. -/
theorem Sound.step {c c' : Client} (hs : c.Sound) (h : Step c c') : c'.Sound := by
  have hprefix := List.prefix_rfl (l := c.declared)
  cases h with
  | registry config =>
    exact ⟨hs.world.addRegistry config, hs.data⟩
  | content content hplain hin =>
    refine ⟨hs.world.push _ hin fun tag values h => hplain tag values (by cases h; rfl), ?_⟩
    exact fun d hd => (hs.data d hd).extends hprefix (Heap.before_push _ _) (Heap.extends_push _ _)
  | function label body =>
    refine ⟨hs.world.push _ (by simp [Object.children]) (by simp), ?_⟩
    exact fun d hd => (hs.data d hd).extends hprefix (Heap.before_push _ _) (Heap.extends_push _ _)
  | lazy body =>
    refine ⟨hs.world.push _ (by simp [Object.children]) (by simp), ?_⟩
    exact fun d hd => (hs.data d hd).extends hprefix (Heap.before_push _ _) (Heap.extends_push _ _)
  | declare r name base? specs d w hr hb hrun =>
    obtain ⟨hdec, hd⟩ := hs.world.declare hr (fun b h => hs.data b (hb b h)) hrun
    refine ⟨hdec.canonical, fun d' hd' => ?_⟩
    rcases List.mem_cons.mp hd' with rfl | hd'
    · exact hd
    · exact (hs.data d' hd').extends (List.prefix_append _ _) hdec.before hdec.extends_
  | construct d v form x w hd hv hin hrun =>
    rcases hs.constructs hd hv hin hrun with ⟨values, _, hcon⟩ | ⟨_, rfl, _⟩
    · exact ⟨hcon.canonical,
        fun d' hd' => (hs.data d' hd').extends hprefix hcon.before hcon.extends_⟩
    · exact hs
  | release heap data hd hr =>
    refine ⟨hs.world.release hr, fun d' hd' => ?_⟩
    refine (hs.data d' (hd hd')).later hprefix hr.before fun v hv => hr.kept v ?_
    exact List.mem_flatMap.mpr ⟨d', hd', hv⟩
  | purge r =>
    have hswept := World.sweep_swept c.world r
    refine ⟨hs.world.swept hswept, ?_⟩
    exact hswept.heap ▸ hs.data
  | other w hheap hregistries hserials =>
    exact ⟨hs.world.congr hheap hregistries hserials, hheap ▸ hs.data⟩

/-- No object comes back, and no number is used twice. -/
theorem Sound.before {c c' : Client} (hs : c.Sound) (h : Step c c') :
    c.world.heap.Before c'.world.heap := by
  cases h with
  | registry => exact Heap.Before.refl _
  | content | function | lazy => exact Heap.before_push _ _
  | declare r name base? specs d w hr hb hrun =>
    exact (hs.world.declare hr (fun b h => hs.data b (hb b h)) hrun).1.before
  | construct d v form x w hd hv hin hrun =>
    rcases hs.constructs hd hv hin hrun with ⟨values, _, hcon⟩ | ⟨_, rfl, _⟩
    · exact hcon.before
    · exact Heap.Before.refl _
  | release heap data hd hr => exact hr.before
  | purge r => exact (World.sweep_swept c.world r).heap ▸ Heap.Before.refl _
  | other w hheap => exact hheap ▸ Heap.Before.refl _

theorem Step.declared_grows {c c' : Client} (h : Step c c') : c.declared <+: c'.declared := by
  cases h with
  | declare => exact List.prefix_append _ _
  | _ => exact List.prefix_rfl

theorem Sound.steps {c c' : Client} (hs : c.Sound) (h : Steps c c') : c'.Sound := by
  induction h with
  | refl => exact hs
  | tail _ hstep ih => exact ih.step hstep

theorem Sound.stepsBefore {c c' : Client} (hs : c.Sound) (h : Steps c c') :
    c.world.heap.Before c'.world.heap := by
  induction h with
  | refl => exact Heap.Before.refl _
  | tail hsteps hstep ih => exact ih.trans ((hs.steps hsteps).before hstep)

/-- A settlement lets go of what no name keeps alive. -/
theorem Sound.step_settled {c : Client} (hs : c.Sound)
    (hroots : ∀ v ∈ c.world.roots, c.world.heap.Proper v) {data : List Data} (hd : data ⊆ c.data)
    (hkept : ∀ d ∈ data, ∀ v ∈ d.singletons, v ∈ c.world.roots) :
    Step c {c with world := c.world.settled, data} := by
  have hretains := Heap.retains_collect hs.world.heap c.world.roots hroots
  refine .release c _ data hd ⟨hretains.size, hretains.object, hretains.closed, fun v hv => ?_⟩
  obtain ⟨d, hd, hv⟩ := List.mem_flatMap.mp hv
  exact hretains.kept v (hkept d hd v hv)

theorem Reachable.sound {c : Client} (hc : c.Reachable) : c.Sound := sound_start.steps hc

end Client

end OpenVariants

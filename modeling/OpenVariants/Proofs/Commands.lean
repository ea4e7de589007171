import OpenVariants.Proofs.Parts

/-! Commands in lockstep.

Every command of a session but four is steady: what it works on is what names stand for
or what was evaluated, and that is in hand (`steady_execute`). The four are `registry`
and `registryInfo`, which show a purge interval, `purge`, which sweeps, and `drop`,
after which less is in hand. -/
namespace OpenVariants

open World

/-! ### Facades and views -/

/-- What a member of a view is, is in hand. -/
def World.HasMember (w : World) : Member → Prop
  | .field v => w.HasValue v
  | .method m => w.HasBinding (.method m)

namespace Run
variable {w : World}

theorem hasFacade_compose {d : Data} {traits : List Trait} {f : Facade}
    (h : Facade.compose d traits = .ok f) (hd : w.Has d.singletons)
    (ht : ∀ t ∈ traits, w.HasEntry t) : w.HasFacade f := by
  have hbind : ∀ traits bound bound', Facade.bindTraits d bound traits = .ok bound' →
      (∀ t ∈ traits, w.HasEntry t) → (∀ p ∈ bound, w.HasTraitId p.2) →
      ∀ p ∈ bound', w.HasTraitId p.2 := by
    intro traits
    induction traits with
    | nil =>
      intro bound bound' h _ hbound
      cases h
      exact hbound
    | cons t rest ih =>
      intro bound bound' h ht hbound
      unfold Facade.bindTraits at h
      split at h
      · cases h
      · split at h
        · cases h
        · refine ih _ bound' h (fun u hu => ht u (List.mem_cons_of_mem _ hu)) fun p hp => ?_
          rcases List.mem_append.mp hp with hp | hp
          · exact hbound p hp
          · rw [List.mem_singleton.mp hp]
            exact (ht t List.mem_cons_self).id
  unfold Facade.compose at h
  split at h
  · next bound hbound =>
    cases h
    exact ⟨hd, hbind traits [] bound hbound ht nofun⟩
  · cases h

theorem hasView_unit {f : Facade} (hf : w.HasFacade f) {name : String} {v : View}
    (h : f.unit name = .ok v) : w.HasBinding (.view v) := by
  unfold Facade.unit at h
  split at h
  · next id hunit =>
    cases h
    exact ⟨hf.values _ (Data.unit_mem hunit), hf⟩
  · cases h
  · cases h

theorem HasFacade.trait? {f : Facade} (hf : w.HasFacade f) {name : String} {id : TraitId}
    (h : f.trait? name = some id) : w.HasTraitId id := by
  obtain ⟨p, hp, rfl⟩ := Option.map_eq_some_iff.mp h
  exact hf.traits p (List.mem_of_find?_eq_some hp)

theorem hasMethod_bind {v : View} (hv : w.HasBinding (.view v)) {variant : String} {id : TraitId}
    (hid : w.HasTraitId id) {w' : World} {m : Method} (h : v.bind variant id w' = .ok m) :
    w.HasBinding (.method m) := by
  unfold View.bind at h
  split at h
  · split at h <;> cases h
    exact ⟨hv.1, hid⟩
  · cases h

theorem steady_member {v : View} (hv : w.HasBinding (.view v)) (name : String) :
    (v.member performAll name).Steady HasMember w := by
  refine steady_get (fun w' ho _ => ?_) fun _ _ => rfl
  have hv' := hv.onward ho
  split
  · exact steady_fail _
  · next tag values _ =>
    split
    · exact (steady_readAt steady_performAll _ _).bind fun _ _ _ h => steady_pure fun _ ho =>
        HasValue.onward h ho
    · split
      · next id hid =>
        have hid' := HasFacade.trait? hv'.2 hid
        have hlift : (lift (v.bind tag.name id w')).Steady (fun w m => w.HasBinding (.method m)) w' :=
          steady_lift fun m hm w'' ho' => (hasMethod_bind hv' hid' hm).onward ho'
        exact hlift.bind fun _ _ _ h => steady_pure fun _ ho => HasBinding.onward h ho
      · exact steady_fail _

theorem steady_method {v : View} (hv : w.HasBinding (.view v)) (name : String) :
    (v.method performAll name).Steady (fun w m => w.HasBinding (.method m)) w := by
  refine (steady_member hv name).bind fun w' m _ hm => ?_
  split
  · exact steady_pure fun _ ho => HasBinding.onward hm ho
  · exact steady_get (fun _ _ _ => steady_fail _) fun _ _ => rfl

theorem steady_callTrait {id : TraitId} (hid : w.HasTraitId id) {args : List Value}
    (hargs : w.Has args) : (callTrait id args).Steady HasValue w :=
  steady_performAll w none (.call id args) trivial ⟨hid, hargs⟩

theorem steady_callMethod {m : Method} (hm : w.HasBinding (.method m)) {args : List Value}
    (hargs : w.Has args) : (m.call performAll args).Steady HasValue w :=
  steady_performAll w none _ trivial ⟨hm.2, has_cons.mpr ⟨hm.1, hargs⟩⟩

end Run

/-! ### Commands -/

/-- A command that does not show a purge interval, sweep, or let go of a name. -/
def Command.isSteady : Command → Bool
  | .registry _ | .registryInfo _ | .purge _ | .drop _ => false
  | _ => true

namespace Session
open Run
variable {w : World}

theorem steady_someEntry (table : Array α) (id : Nat) (role : String) :
    (entry table id role).Steady (fun _ _ => True) w := steady_entry fun _ _ _ _ => trivial

theorem steady_variant (f : Facade) (name : String) :
    (lift (f.data.variant name)).Steady (fun _ _ => True) w :=
  steady_lift fun _ _ _ _ => trivial

/-- Twins count the same living instances. -/
theorem steady_live (quiet : Bool) (name : String) :
    (execute quiet (.live name)).Steady HasMade w := by
  refine (steady_named _ _ _).bind fun w₁ id _ _ => steady_read (fun w₂ _ _ => ?_) fun w₂ rs ht => ?_
  · exact (steady_someEntry _ _ _).bind fun _ _ _ _ => steady_only _
  · unfold entry
    rcases ht.registries.cases id with ⟨ha, hb⟩ | ⟨a, b, ha, hb, htwin⟩
    · simp only [ha, hb]
      rfl
    · simp only [ha, hb]
      change only (.count (b.canonical.count w₂.heap)) = only (.count (a.canonical.count w₂.heap))
      rw [htwin.count_eq]

theorem steady_declareCommand (quiet : Bool) (registry name : String) (base : Option String)
    (variants : List VariantSpec) :
    (execute quiet (.declare registry name base variants)).Steady HasMade w := by
  have hpost : ∀ (w w' : World) (d : Data), w.Onward w' → w.Has d.singletons → w'.Has d.singletons :=
    fun _ _ _ ho h => h.onward ho
  refine (steady_named _ _ _).bind fun w₁ r _ _ =>
    (steady_optionally hpost base steady_dataNamed).bind fun w₂ base? _ hbase =>
      (steady_declare r name variants hbase).bind fun w₃ d _ hd => steady_made hd

theorem steady_traitCommand (quiet : Bool) (registry name : String) (data base : Option String)
    (cases : List (String × CaseText)) :
    (execute quiet (.trait registry name data base cases)).Steady HasMade w := by
  have hdata : ∀ (w w' : World) (d : Data), w.Onward w' → w.Has d.singletons → w'.Has d.singletons :=
    fun _ _ _ ho h => h.onward ho
  have htrait : ∀ (w w' : World) (t : Trait), w.Onward w' → w.HasEntry t → w'.HasEntry t :=
    fun _ _ _ ho h => h.onward ho
  refine (steady_named _ _ _).bind fun w₁ r _ _ =>
    (steady_optionally hdata data steady_dataNamed).bind fun w₂ data? _ hd =>
      (steady_optionally htrait base steady_traitNamed).bind fun w₃ base? ho₃ hb =>
        (steady_buildCases cases).bind fun w₄ cs ho₄ hcs => ?_
  refine (steady_defineTrait r name (fun d h => (hd d h).onward (ho₃.trans ho₄))
    (fun b h => ((hb b h).onward ho₄).trait) hcs).bind fun w₅ id _ hid => ?_
  exact steady_get (fun _ ho _ => (steady_someEntry _ _ _).bind fun _ _ ho' _ =>
    steady_made (hid.onward (ho.trans ho'))) fun _ _ => rfl

theorem steady_memoCommand (quiet : Bool) (registry trait : String) (bottom : BottomText) :
    (execute quiet (.memo registry trait bottom)).Steady HasMade w := by
  refine (steady_named _ _ _).bind fun w₁ _ _ _ => (steady_buildBottom bottom).bind
    fun w₂ b _ hb => (steady_traitNamed trait).bind fun w₃ t ho₃ ht => ?_
  refine (steady_memoize ht.trait (hb.1.onward ho₃) hb.2).bind fun w₄ id _ hid => ?_
  exact steady_get (fun _ ho _ => (steady_someEntry _ _ _).bind fun _ _ ho' _ =>
    steady_made (hid.onward (ho.trans ho'))) fun _ _ => rfl

theorem steady_composeCommand (quiet : Bool) (registry data : String) (traits : List String) :
    (execute quiet (.compose registry data traits)).Steady HasMade w := by
  have htrait : ∀ (w w' : World) (t : Trait), w.Onward w' → w.HasEntry t → w'.HasEntry t :=
    fun _ _ _ ho h => h.onward ho
  refine (steady_named _ _ _).bind fun w₁ _ _ _ =>
    (steady_mapM htrait traits fun name _ _ _ => steady_traitNamed name).bind fun w₂ ts _ hts =>
      (steady_dataNamed data).bind fun w₃ d ho₃ hd => ?_
  have hcompose : (lift (Facade.compose d ts)).Steady HasFacade w₃ := steady_lift fun f hf w₄ ho₄ =>
    (hasFacade_compose hf hd fun t ht => (hts t ht).onward ho₃).onward ho₄
  exact hcompose.bind fun w₄ f _ hf => steady_made hf

/-! ### Stores -/

theorem steady_purgeStore (id : StoreId) : (execute.purgeStore id).Steady HasMade w :=
  steady_atomic fun w' rs _ ht => ⟨_, w'.updateStore id Store.purged, rfl, rfl, rfl,
    onward_storePurged ht.fit.tables id, fun _ h _ hb => by cases h; cases hb⟩

theorem steady_storeErase (id : StoreId) (path : List Key) :
    Steady (do
      let w ← get
      let (removed, store) := (← entry w.stores id "store").delete w.heap path
      set (w.updateStore id fun _ _ => store)
      only (.flag removed)) HasMade w := by
  refine steady_atomic fun w' rs _ ht => ?_
  cases hs : w'.stores[id]? with
  | none =>
    refine ⟨.error (.fault (.program (.noEntry "store" s!"{id}"))), w', ?_, ?_, rfl, .refl w', nofun⟩
    · simp only [bind_apply, get_apply, entry, hs, fail_apply]
    · simp only [bind_apply, get_apply, entry, hs, fail_apply]
  | some s =>
    have honward := onward_storeErase ht.fit.tables id path
    rw [storeErase, ← updateStore_const hs] at honward
    refine ⟨.ok (.flag (s.delete w'.heap path).1, none), w'.updateStore id fun _ _ => s.erase path, ?_,
      ?_, rfl, honward, ?_⟩
    · simp only [bind_apply, get_apply, entry, hs, pure_apply, set_apply]
      rfl
    · simp only [bind_apply, get_apply, entry, hs, pure_apply, set_apply]
      rfl
    · rintro _ ⟨⟩ _ hb
      cases hb

theorem steady_storeIntern (quiet : Bool) (id : StoreId) (hid : w.Owns id) {path : List Key}
    (hpath : path ≠ []) {v : Value} (hv : w.HasValue v) :
    Steady (do
      let w ← get
      let (found, store) := (← entry w.stores id "store").intern w.heap path v
      match found with
      | some v => return (.interned false (← shown quiet v), some (.value v))
      | none =>
        set (w.updateStore id fun _ _ => store)
        return (.interned true (← shown quiet v), some (.value v))) HasMade w := by
  have hreply : ∀ w : World, ∀ u made, w.HasValue u → Steady (do
      return (.interned made (← shown quiet u), some (.value u))) HasMade w := fun w u made hu =>
    (steady_shown quiet u).bind fun _ _ ho _ => steady_made (HasValue.onward hu ho)
  intro w' rs ho ht
  cases hs : w'.stores[id]? with
  | none =>
    refine ⟨.error (.fault (.program (.noEntry "store" s!"{id}"))), w', rs, ?_, ?_, ht, .refl w', nofun⟩
    · simp only [bind_apply, get_apply, entry, hs, fail_apply]
    · simp only [bind_apply, get_apply, entry, hs, fail_apply]
  | some s =>
    have hintern := Store.intern_eq w'.heap path v s hpath
    cases hget : s.get? w'.heap path with
    | some u =>
      rw [hget] at hintern
      have hu : w'.HasValue u := (ho.owns id hid).stored? ht.fit (by rw [World.stored?, hs]; exact hget)
      refine InStep.after (.refl w') ?_ ?_ (hreply w' u false hu w' rs (.refl w') ht)
      · simp only [bind_apply, get_apply, entry, hs, pure_apply, hintern]
      · simp only [bind_apply, get_apply, entry, hs, pure_apply, hintern]
    | none =>
      rw [hget] at hintern
      have honward := onward_storeSet ht.fit.tables id path (HasValue.onward hv ho)
      rw [storeSet, ← updateStore_const hs] at honward
      refine InStep.after honward ?_ ?_
        (hreply _ v true ((HasValue.onward hv ho).onward honward) _ rs (.refl _) (ht.onward honward rfl))
      · simp only [bind_apply, get_apply, entry, hs, pure_apply, hintern, set_apply]
      · simp only [bind_apply, get_apply, entry, hs, pure_apply, hintern, set_apply]
        rfl

/-! ### All of them -/

/-- A command that is not one of the four is in step, and what it made is in hand. -/
theorem steady_execute (quiet : Bool) (c : Command) (hc : c.isSteady = true) :
    (execute quiet c).Steady HasMade w := by
  cases c with
  | registry | registryInfo | purge | drop => cases hc
  | eval e => exact (steady_evaluate e).bind fun _ _ _ hv => steady_valued quiet hv
  | inspect e =>
    exact (steady_evaluate e).bind fun _ _ _ _ =>
      steady_get (fun _ _ _ => steady_only _) fun _ _ => rfl
  | compare a b =>
    exact (steady_evaluate a).bind fun _ _ _ _ => (steady_evaluate b).bind fun _ _ _ _ => steady_only _
  | weaken e =>
    exact (steady_evaluate e).bind fun _ v _ hv =>
      steady_get (fun _ ho _ => steady_made (b := .weak v) (HasValue.onward hv ho).known)
        fun _ _ => rfl
  | upgrade name =>
    exact (steady_named _ _ _).bind fun _ _ _ _ =>
      steady_get (fun _ _ _ => steady_only _) fun _ _ => rfl
  | identify | config | scenarios | scenario => exact steady_only _
  | sameRegistry a b =>
    exact (steady_named _ _ _).bind fun _ _ _ _ => (steady_named _ _ _).bind fun _ _ _ _ =>
      steady_only _
  | live name => exact steady_live quiet name
  | declare registry name base variants => exact steady_declareCommand quiet registry name base variants
  | data name => exact (steady_dataNamed name).bind fun _ _ _ _ => steady_only _
  | variant of field => exact (steady_variantNamed of).bind fun _ _ _ _ => steady_only _
  | singleton of =>
    exact (steady_variantNamed of).bind fun _ v _ hv =>
      (steady_lift fun u hu _ ho => HasValue.onward (hv u hu) ho).bind fun _ _ _ hu =>
        steady_valued quiet hu
  | sameTag a b =>
    exact (steady_variantNamed a).bind fun _ _ _ _ => (steady_variantNamed b).bind fun _ _ _ _ =>
      steady_only _
  | containsTag data of =>
    exact (steady_dataNamed data).bind fun _ _ _ _ => (steady_variantNamed of).bind fun _ _ _ _ =>
      steady_only _
  | sameData a b | extends_ a b =>
    exact (steady_dataNamed a).bind fun _ _ _ _ => (steady_dataNamed b).bind fun _ _ _ _ => steady_only _
  | contains data e =>
    exact (steady_dataNamed data).bind fun _ _ _ _ => (steady_evaluate e).bind fun _ _ _ _ =>
      steady_get (fun _ _ _ => steady_only _) fun _ _ => rfl
  | inst e =>
    exact (steady_evaluate e).bind fun _ v _ _ => (Program.steady_expectInstance v).exec.bind
      fun _ _ _ _ => steady_get (fun _ _ _ => steady_only _) fun _ _ => rfl
  | knot =>
    exact (steady_change (fun _ _ _ => ⟨onward_addKnot, trivial⟩) (fun _ => rfl) fun _ _ => rfl).bind
      fun _ k _ (_ : True) => steady_made (b := .knot k) trivial
  | tie knot e =>
    exact (steady_named _ _ _).bind fun _ k _ _ => (steady_evaluate e).bind fun _ _ _ hv =>
      (steady_tie k hv).bind fun _ _ _ _ => steady_only _
  | tied knot =>
    exact (steady_named _ _ _).bind fun _ _ _ _ =>
      steady_get (fun _ _ _ => steady_only _) fun _ _ => rfl
  | target knot =>
    refine (steady_named _ _ _).bind fun _ k _ _ => steady_get (fun w' _ hfit => ?_) fun _ _ => rfl
    exact (steady_lift fun v hv _ ho => (hfit.knotTarget hv).onward ho).bind fun _ _ _ hv =>
      steady_valued quiet hv
  | pattern p =>
    exact (steady_buildPattern p).bind fun _ _ _ hp =>
      steady_get (fun _ ho _ => steady_made (Has.onward hp ho)) fun _ _ => rfl
  | unify p e =>
    exact (steady_buildPattern p).bind fun _ p' _ _ => (steady_evaluate e).bind fun _ v _ _ =>
      (steady_unify steady_performAll p' v).bind fun _ _ _ _ => steady_only _
  | rules texts =>
    refine (steady_buildRules texts).bind fun w₁ r _ hr => steady_get (fun w₂ ho _ => ?_) fun _ _ => rfl
    have hadd : (Run.change (World.addRules r)).Steady (fun w id => w.HasBinding (.rules id)) w₂ :=
      steady_change (fun w₃ ho' _ => ⟨onward_addRules r, r, by simp [addRules],
        ((hr.onward ho).onward ho').onward (onward_addRules r)⟩) (fun _ => rfl) fun _ _ => rfl
    exact hadd.bind fun _ _ _ hid => steady_made hid
  | trait registry name data base cases => exact steady_traitCommand quiet registry name data base cases
  | traitInfo name =>
    exact (steady_traitNamed name).bind fun _ _ _ _ =>
      steady_get (fun _ _ _ => steady_only _) fun _ _ => rfl
  | resolves trait variant => exact (steady_traitNamed trait).bind fun _ _ _ _ => steady_only _
  | sameTrait a b =>
    exact (steady_traitNamed a).bind fun _ _ _ _ => (steady_traitNamed b).bind fun _ _ _ _ =>
      steady_only _
  | hasBase a b =>
    exact (steady_traitNamed a).bind fun _ _ _ _ =>
      steady_get (fun _ _ _ => steady_only _) fun _ _ => rfl
  | call trait args =>
    exact (steady_traitNamed trait).bind fun _ _ _ ht => (steady_evaluateAll args).bind
      fun _ _ ho hargs => (steady_callTrait (ht.id.onward ho) hargs).bind
        fun _ _ _ hv => steady_valued quiet hv
  | memo registry trait bottom => exact steady_memoCommand quiet registry trait bottom
  | memoCount trait =>
    exact (steady_traitNamed trait).bind fun _ _ _ _ =>
      steady_get (fun _ _ _ => steady_only _) fun _ _ => rfl
  | purgeMemo trait =>
    refine (steady_traitNamed trait).bind fun _ t _ _ => ?_
    split
    · exact steady_only _
    · exact steady_purgeStore _
  | compose registry data traits => exact steady_composeCommand quiet registry data traits
  | boundTrait facade name =>
    refine (steady_facadeNamed facade).bind fun _ f _ _ => steady_get (fun w' _ _ => ?_) fun w' rs => ?_
    · split
      · exact (steady_someEntry _ _ _).bind fun _ _ _ _ => steady_only _
      · exact steady_only _
    · rfl
  | boundVariant facade variant =>
    exact (steady_facadeNamed facade).bind fun _ f _ _ => (steady_variant f variant).bind
      fun _ _ _ _ => steady_only _
  | viewNew facade variant args =>
    exact (steady_facadeNamed facade).bind fun _ f _ hf => (steady_variant f variant).bind
      fun _ v ho _ => (steady_evaluateAll args).bind fun _ _ ho' hargs =>
        (steady_construct v hargs).bind fun _ _ ho'' hv =>
          steady_constructed (hf.onward ((ho.trans ho').trans ho'')) hv
  | viewKeyed facade variant record =>
    refine (steady_facadeNamed facade).bind fun _ f _ hf => (steady_variant f variant).bind
      fun _ v ho _ => (steady_evaluate record).bind fun w₁ r ho' _ => ?_
    have hkeyed := (Program.steady_expectRecord (w := w₁) r).bind fun _ _ _ h =>
      Program.steady_constructKeyed v h
    exact hkeyed.exec.bind fun _ _ ho'' hv =>
      steady_constructed (hf.onward ((ho.trans ho').trans ho'')) hv
  | viewApply facade variant args =>
    exact (steady_facadeNamed facade).bind fun _ f _ hf => (steady_variant f variant).bind
      fun _ v ho _ => (steady_evaluateAll args).bind fun _ _ ho' hargs =>
        (Program.steady_constructApply v hargs).exec.bind fun _ _ ho'' hv =>
          steady_constructed (hf.onward ((ho.trans ho').trans ho'')) hv
  | viewUnit facade variant =>
    exact (steady_facadeNamed facade).bind fun _ f _ hf =>
      (steady_lift fun v hv _ ho => (hasView_unit hf hv).onward ho).bind fun _ _ _ hv =>
        steady_viewed hv
  | viewWrap facade e =>
    exact (steady_facadeNamed facade).bind fun _ f _ hf => (steady_evaluate e).bind fun _ v ho hv =>
      steady_wrapped (hf.onward ho) hv
  | viewValue view => exact (steady_viewNamed view).bind fun _ v _ hv => steady_valued quiet hv.1
  | viewField view name =>
    exact (steady_viewNamed view).bind fun _ v _ _ =>
      (Program.steady_readField v.value name).exec.bind fun _ _ _ hv => steady_valued quiet hv
  | viewCall view name args =>
    refine (steady_viewNamed view).bind fun _ v _ hv => (steady_evaluateAll args).bind
      fun _ _ ho hargs => ?_
    have hcall : (v.call performAll name _).Steady HasValue _ :=
      (steady_method (hv.onward ho) name).bind fun _ _ ho' hm =>
        steady_callMethod hm (hargs.onward ho')
    exact hcall.bind fun _ _ _ hv => steady_valued quiet hv
  | viewMember view name =>
    refine (steady_viewNamed view).bind fun _ v _ hv => (steady_member hv name).bind fun _ m _ _ => ?_
    split
    · exact steady_get (fun _ _ _ => steady_only _) fun _ _ => rfl
    · exact steady_get (fun _ _ _ => steady_only _) fun _ _ => rfl
  | viewMethod view name =>
    exact (steady_viewNamed view).bind fun _ v _ hv => (steady_method hv name).bind fun _ m _ hm =>
      steady_get (fun _ ho _ => steady_made (HasBinding.onward hm ho)) fun _ _ => rfl
  | viewAssign view name e =>
    exact (steady_viewNamed view).bind fun _ _ _ _ => (steady_evaluate e).bind fun _ _ _ _ =>
      steady_fail _
  | viewRemove view name => exact (steady_viewNamed view).bind fun _ _ _ _ => steady_fail _
  | sameView a b =>
    exact (steady_viewNamed a).bind fun _ _ _ _ => (steady_viewNamed b).bind fun _ _ _ _ =>
      steady_only _
  | viewFacade view => exact (steady_viewNamed view).bind fun _ _ _ _ => steady_only _
  | callMethod method args =>
    exact (steady_methodNamed method).bind fun _ m _ hm => (steady_evaluateAll args).bind
      fun _ _ ho hargs => (steady_callMethod (hm.onward ho) hargs).bind
        fun _ _ _ hv => steady_valued quiet hv
  | store retention =>
    have hadd : (Run.change (World.addStore (retention.getD .weak))).Steady Owns w :=
      steady_change (fun _ _ _ => ⟨onward_addStore _, owns_addStore _⟩) (fun _ => rfl) fun _ _ => rfl
    exact hadd.bind fun _ id _ hid => steady_made (b := .store id) hid
  | storeGet store keys =>
    refine (steady_storeNamed store).bind fun _ id _ hid => (steady_evaluateAll keys).bind
      fun _ _ ho _ => (steady_pathOf _).bind fun _ path ho' _ =>
        steady_get (fun w' ho'' hfit => ?_) fun _ _ => rfl
    have hid' := ((ho.trans ho').trans ho'').owns id hid
    split
    · next v hv =>
      exact (steady_shown quiet v).bind fun _ _ ho₃ _ =>
        steady_made (HasValue.onward (hid'.stored? hfit hv) ho₃)
    · exact steady_only _
  | storeHas store keys =>
    exact (steady_storeNamed store).bind fun _ id _ _ => (steady_evaluateAll keys).bind
      fun _ _ _ _ => (steady_pathOf _).bind fun _ path _ _ =>
        steady_get (fun _ _ _ => (steady_someEntry _ _ _).bind fun _ _ _ _ => steady_only _)
          fun _ _ => rfl
  | storeSet store keys e =>
    exact (steady_storeNamed store).bind fun _ id _ _ => (steady_evaluateAll keys).bind
      fun _ _ _ _ => (steady_evaluate e).bind fun _ v _ hv => (steady_pathOf _).bind
        fun _ path ho _ => (steady_modify (fun _ ho' hfit => onward_storeSet hfit.tables id path
          (HasValue.onward hv (ho.trans ho'))) (fun _ => rfl) fun _ _ => rfl).bind
            fun _ _ _ _ => steady_only _
  | storeErase store keys =>
    exact (steady_storeNamed store).bind fun _ id _ _ => (steady_evaluateAll keys).bind
      fun _ _ _ _ => (steady_pathOf _).bind fun _ path _ _ => steady_storeErase id path
  | storeIntern store keys e =>
    exact (steady_storeNamed store).bind fun _ id _ hid => (steady_evaluateAll keys).bind
      fun _ _ ho _ => (steady_evaluate e).bind fun _ v ho' hv => (steady_pathOf _).bind
        fun _ path ho'' hpath => steady_storeIntern quiet id
          (((ho.trans ho').trans ho'').owns id hid) hpath (hv.onward ho'')
  | storePurge store => exact (steady_storeNamed store).bind fun _ id _ _ => steady_purgeStore id
  | storeCount store =>
    exact (steady_storeNamed store).bind fun _ id _ _ =>
      steady_get (fun _ _ _ => (steady_someEntry _ _ _).bind fun _ _ _ _ => steady_only _)
        fun _ _ => rfl
  | storeClear store =>
    exact (steady_storeNamed store).bind fun _ id _ _ =>
      (steady_modify (fun _ _ hfit => onward_storeCleared hfit.tables id) (fun _ => rfl)
        fun _ _ => rfl).bind fun _ _ _ _ => steady_only _

end Session

end OpenVariants

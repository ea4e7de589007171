import OpenVariants.Proofs.Calls
import OpenVariants.Proofs.Use
import OpenVariants.Session

/-! Parts of commands in lockstep.

A command looks names up, evaluates expressions, builds rules, cases and bottoms, and
defines what it was asked for. What names stand for is in hand, so what is found, built
and defined is in hand as well. -/
namespace OpenVariants

open World

namespace World

/-- What a command made is in hand. -/
def HasMade (w : World) (made : Reply × Option Binding) : Prop :=
  ∀ b, made.2 = some b → w.HasBinding b

structure HasCase (w : World) (c : Case) : Prop where
  values : w.Has c.heldValues
  textual : c.Textual

structure HasRule (w : World) (r : Rule) : Prop where
  values : w.Has (Pattern.itemsHeld r.patterns)
  textual : r.Textual

/-- A trait that has its place in the table. -/
structure HasEntry (w : World) (t : Trait) : Prop where
  entry : w.traits[t.layer.id]? = some t
  trait : w.HasTrait t

section
variable {w w' : World}

theorem HasEntry.id {t : Trait} (h : w.HasEntry t) : w.HasTraitId t.layer.id := ⟨t, h.entry, h.trait⟩

theorem HasEntry.onward {t : Trait} (h : w.HasEntry t) (ho : w.Onward w') : w'.HasEntry t :=
  ⟨ho.traits _ t h.entry, h.trait.onward ho⟩

theorem HasCase.onward {c : Case} (h : w.HasCase c) (ho : w.Onward w') : w'.HasCase c :=
  ⟨h.values.onward ho, h.textual⟩

theorem HasRule.onward {r : Rule} (h : w.HasRule r) (ho : w.Onward w') : w'.HasRule r :=
  ⟨h.values.onward ho, h.textual⟩

theorem hasRules {r : Rules} (h : ∀ rule ∈ r.rules, w.HasRule rule) : w.HasRules r where
  values v hv := by
    obtain ⟨rule, hrule, hin⟩ := List.mem_flatMap.mp hv
    exact (h rule hrule).values v hin
  textual rule hrule := (h rule hrule).textual

end

end World

namespace Run
variable {w : World}

/-- A computation on each of a list. -/
theorem steady_mapM {f : α → Run β} {post : World → β → Prop}
    (hpost : ∀ w w' b, w.Onward w' → post w b → post w' b) (l : List α)
    (hf : ∀ a ∈ l, ∀ w', w.Onward w' → (f a).Steady post w') :
    (l.mapM f).Steady (fun w bs => ∀ b ∈ bs, post w b) w := by
  induction l generalizing w with
  | nil =>
    rw [List.mapM_nil]
    exact steady_pure fun _ _ _ h => nomatch h
  | cons a rest ih =>
    rw [List.mapM_cons]
    refine (hf a List.mem_cons_self w (.refl w)).bind fun w₁ b ho hb =>
      (ih fun a ha w' ho' => hf a (List.mem_cons_of_mem _ ha) w' (ho.trans ho')).bind
        fun w₂ bs ho' hbs => steady_pure fun w₃ ho'' => ?_
    exact List.forall_mem_cons.mpr
      ⟨hpost _ _ b (ho'.trans ho'') hb, fun b' hb' => hpost _ _ b' ho'' (hbs b' hb')⟩

end Run

namespace Session
open Run
variable {w : World}

/-! ### Lookups and evaluation -/

theorem steady_lookUp (role name : String) (select : Binding → Option α) :
    (OpenVariants.lookUp role name select).Steady
      (fun w a => ∃ b, w.HasBinding b ∧ select b = some a) w :=
  (Program.steady_lookUp role name select).exec

theorem steady_named (role name : String) (select : Binding → Option α) :
    (OpenVariants.lookUp role name select).Steady (fun _ _ => True) w :=
  (steady_lookUp role name select).mono fun _ _ _ _ => trivial

theorem steady_dataNamed (name : String) :
    (dataNamed name).Steady (fun w d => w.Has d.singletons) w := by
  refine (steady_lookUp "data" name Binding.data?).mono ?_
  rintro w' v - ⟨_ | _ | _ | _, hb, hv⟩ <;> cases hv
  exact hb

theorem steady_variantNamed (of : VariantName) :
    (variantNamed of).Steady (fun w v => ∀ u, v.singleton = .ok u → w.HasValue u) w := by
  refine (steady_dataNamed of.data).bind fun w' d _ hd => steady_lift fun v hv w'' ho u hu => ?_
  have hunit : d.unit of.variant = .ok u := by
    unfold Data.unit
    rw [hv]
    exact hu
  exact HasValue.onward (hd u (Data.unit_mem hunit)) ho

theorem steady_traitNamed (name : String) : (traitNamed name).Steady HasEntry w := by
  refine (steady_lookUp "trait" name Binding.trait?).bind fun w₁ id _ hid =>
    steady_get (fun w₂ ho hfit => ?_) fun _ _ => rfl
  obtain ⟨b, hb, hselect⟩ := hid
  cases b <;> cases hselect
  obtain ⟨t, ht, hin⟩ := hb
  have ht' := ho.traits id t ht
  have hentry : w₂.HasEntry t := ⟨hfit.tables.traits id t ht' ▸ ht', hin.onward ho⟩
  unfold entry
  rw [ht']
  exact steady_pure fun _ ho' => hentry.onward ho'

theorem steady_facadeNamed (name : String) : (facadeNamed name).Steady HasFacade w := by
  refine (steady_lookUp "facade" name Binding.facade?).mono ?_
  rintro w' f - ⟨_ | _ | _ | _, hb, hf⟩ <;> cases hf
  exact hb

theorem steady_viewNamed (name : String) :
    (viewNamed name).Steady (fun w v => w.HasBinding (.view v)) w := by
  refine (steady_lookUp "view" name Binding.view?).mono ?_
  rintro w' v - ⟨_ | _ | _ | _, hb, hv⟩ <;> cases hv
  exact hb

theorem steady_methodNamed (name : String) :
    (OpenVariants.lookUp "method" name Binding.method?).Steady
      (fun w m => w.HasBinding (.method m)) w := by
  refine (steady_lookUp "method" name Binding.method?).mono ?_
  rintro w' m - ⟨_ | _ | _ | _, hb, hm⟩ <;> cases hm
  exact hb

theorem steady_storeNamed (name : String) : (storeNamed name).Steady Owns w := by
  refine (steady_lookUp "store" name Binding.store?).mono ?_
  rintro w' id - ⟨_ | _ | _ | _, hb, hid⟩ <;> cases hid
  exact hb

/-- An entry of a table that is not the registries'. -/
theorem steady_entry {table : Array α} {id : Nat} {role : String} {post : World → α → Prop}
    (h : ∀ a, table[id]? = some a → ∀ w', w.Onward w' → post w' a) :
    (entry table id role).Steady post w := by
  unfold entry
  split
  · next a ha => exact steady_pure (h a ha)
  · exact steady_fail _

theorem steady_optionally {find : String → Run α} {post : World → α → Prop}
    (hpost : ∀ w w' a, w.Onward w' → post w a → post w' a) (name? : Option String)
    (hfind : ∀ name, (find name).Steady post w) :
    (optionally name? find).Steady (fun w a? => ∀ a, a? = some a → post w a) w := by
  cases name? with
  | none => exact steady_pure fun _ _ _ h => nomatch h
  | some name =>
    exact (hfind name).bind fun w' a _ ha => steady_pure fun w'' ho b hb =>
      Option.some.inj hb ▸ hpost _ _ a ho ha

theorem steady_evaluate (e : Expr) : (evaluate e).Steady HasValue w :=
  (e.steady_meaning (.ofArgs has_nil false)).exec

theorem steady_evaluateAll (es : List Expr) : (evaluateAll es).Steady Has w :=
  (steady_meanings es (.ofArgs has_nil false)).exec

theorem steady_buildPattern (p : PatternExpr) :
    (buildPattern p).Steady (fun w p => w.Has p.heldValues) w :=
  (p.steady_build (.ofArgs has_nil false)).exec

/-! ### Replies -/

theorem steady_only (r : Reply) : (only r).Steady HasMade w :=
  steady_pure fun _ _ _ h => nomatch h

theorem steady_shown (quiet : Bool) (v : Value) : (shown quiet v).Steady (fun _ _ => True) w := by
  unfold shown
  split
  · exact steady_pure fun _ _ => trivial
  · exact steady_get (fun _ _ _ => steady_pure fun _ _ => trivial) fun _ _ => rfl

theorem steady_made {r : Reply} {b : Binding} (hb : w.HasBinding b) :
    (pure (r, some b) : Run _).Steady HasMade w :=
  steady_pure fun _ ho _ h => Option.some.inj h ▸ hb.onward ho

theorem steady_valued (quiet : Bool) {v : Value} (hv : w.HasValue v) :
    (valued quiet v).Steady HasMade w :=
  (steady_shown quiet v).bind fun _ _ ho _ => steady_made (hv.onward ho)

theorem steady_viewed {v : View} (hv : w.HasBinding (.view v)) : (viewed v).Steady HasMade w :=
  steady_get (fun _ ho _ => steady_made (hv.onward ho)) fun _ _ => rfl

/-! ### Parts of commands -/

theorem steady_buildRules (texts : List RuleText) : (buildRules texts).Steady HasRules w := by
  have hrule : ∀ text ∈ texts, ∀ w', w.Onward w' → Steady (do
      let patterns ← (buildItems text.patterns {}).exec
      pure (⟨patterns, text.body.asCase⟩ : Rule)) HasRule w' := fun text _ w' _ =>
    (steady_buildItems text.patterns (.ofArgs has_nil false)).exec.bind fun _ _ _ h =>
      steady_pure fun _ ho => ⟨Has.onward h ho, text.body, rfl⟩
  refine (steady_mapM (fun _ _ _ ho h => h.onward ho) texts hrule).bind fun w' rules _ h =>
    steady_lift fun r hr w'' ho => ?_
  have hrules : r.rules = rules := by
    unfold Rules.ofList at hr
    split at hr
    · cases hr
    · split at hr <;> cases hr
      rfl
  exact hasRules fun rule hrule => (h rule (hrules ▸ hrule)).onward ho

theorem HasRules.case {r : Rules} (h : w.HasRules r) : w.HasCase (.rules r) :=
  ⟨h.values, h.textual⟩

theorem steady_buildCase (text : CaseText) : (buildCase text).Steady HasCase w := by
  cases text with
  | handler body => exact steady_pure fun _ _ => ⟨has_nil, body, rfl⟩
  | rules texts =>
    exact (steady_buildRules texts).bind fun _ _ _ h => steady_pure fun _ ho =>
      (HasRules.case h).onward ho
  | named name =>
    refine (OpenVariants.Session.steady_lookUp "rules" name Binding.rules?).bind fun w₁ id _ hid => ?_
    refine steady_get (fun w₂ ho _ => ?_) fun _ _ => rfl
    obtain ⟨b, hb, hselect⟩ := hid
    cases b <;> cases hselect
    obtain ⟨r, hr, hin⟩ := hb
    have hr' := ho.rules id r hr
    have hpost : ∀ a, w₂.rules[id]? = some a → ∀ w', w₂.Onward w' → w'.HasRules a := by
      intro a ha w' ho'
      rw [hr'] at ha
      cases ha
      exact (hin.onward ho).onward ho'
    exact (steady_entry hpost).bind fun _ _ _ h => steady_pure fun _ ho' =>
      (HasRules.case h).onward ho'

theorem steady_buildCases (cases : List (String × CaseText)) :
    (buildCases cases).Steady (fun w cs => ∀ c ∈ cs, w.HasCase c.2) w := by
  have hpost : ∀ (w w' : World) (c : String × Case), w.Onward w' → w.HasCase c.2 → w'.HasCase c.2 :=
    fun _ _ _ ho h => h.onward ho
  refine steady_mapM hpost cases fun c _ w' _ => ?_
  exact (steady_buildCase c.2).bind fun _ _ _ h => steady_pure fun _ ho => h.onward ho

theorem steady_buildBottom (b : BottomText) :
    (buildBottom b).Steady (fun w b => w.Has b.heldValues ∧ b.Textual) w := by
  cases b with
  | value e =>
    exact (steady_evaluate e).bind fun _ _ _ hv => steady_pure fun _ ho =>
      ⟨has_cons.mpr ⟨hv.onward ho, has_nil⟩, trivial⟩
  | compute body => exact steady_pure fun _ _ => ⟨has_nil, body, rfl⟩

/-- The view of an instance in hand. -/
theorem steady_constructed {f : Facade} (hf : w.HasFacade f) {v : Value} (hv : w.HasValue v) :
    (constructed f v).Steady HasMade w := by
  refine steady_get (fun w' ho _ => ?_) fun _ _ => rfl
  refine (steady_lift fun view hview w'' ho' => ?_).bind fun _ _ _ h => steady_viewed h
  unfold Facade.view at hview
  split at hview
  · cases hview
    exact ⟨HasValue.onward hv (ho.trans ho'), hf.onward (ho.trans ho')⟩
  · cases hview

theorem steady_wrapped {f : Facade} (hf : w.HasFacade f) {v : Value} (hv : w.HasValue v) :
    (wrapped f v).Steady HasMade w := by
  refine steady_get (fun w' ho _ => ?_) fun _ _ => rfl
  refine (steady_lift fun view hview w'' ho' => ?_).bind fun _ _ _ h => steady_viewed h
  unfold Facade.wrap at hview
  split at hview
  · split at hview <;> cases hview
    exact ⟨HasValue.onward hv (ho.trans ho'), hf.onward (ho.trans ho')⟩
  · cases hview

theorem steady_pathOf (keys : List Value) : (pathOf keys).Steady (fun _ path => path ≠ []) w :=
  steady_lift fun _ hpath _ _ => (Key.path_ok hpath).2

end Session

/-! ### Definitions -/

namespace Run
variable {w : World}

/-- A definition from what is in hand is in hand. -/
theorem hasTrait_define {id : TraitId} {name : String} {data? : Option Data} {base? : Option Trait}
    {cases : List (String × Case)} {maxDepth : Nat} {t : Trait}
    (h : Trait.define id name data? base? cases maxDepth = .ok t)
    (hdata : ∀ d, data? = some d → w.Has d.singletons) (hbase : ∀ b, base? = some b → w.HasTrait b)
    (hcases : ∀ c ∈ cases, w.HasCase c.2) : w.HasTrait t ∧ t.layer.id = id := by
  unfold Trait.define at h
  split at h
  · cases h
  · dsimp only at h
    have ht : t = ⟨⟨id, name, data?, cases, none, maxDepth⟩, (base?.map Trait.chain).getD []⟩ := by
      split at h <;> cases h
      rfl
    have hlayer : ∀ l ∈ t.chain, l = t.layer ∨ ∃ b, w.HasTrait b ∧ l ∈ b.chain := by
      intro l hl
      rcases List.mem_cons.mp hl with rfl | hl
      · exact .inl rfl
      · rw [ht] at hl
        cases base? with
        | none => cases hl
        | some b => exact .inr ⟨b, hbase b rfl, hl⟩
    refine ⟨⟨fun v hv => ?_, fun store hstore => ?_, fun l hl => ?_⟩, by rw [ht]⟩
    · obtain ⟨l, hl, hin⟩ := List.mem_flatMap.mp hv
      rcases hlayer l hl with rfl | ⟨b, hb, hl⟩
      · rw [ht] at hin
        simp only [Layer.heldValues, Option.map_none, Option.getD_none, List.append_nil,
          List.mem_append, List.mem_flatMap] at hin
        rcases hin with hin | ⟨c, hc, hin⟩
        · cases data? with
          | none => cases hin
          | some d => exact hdata d rfl v hin
        · exact (hcases c hc).values v hin
      · exact hb.values v (List.mem_flatMap.mpr ⟨l, hl, hin⟩)
    · obtain ⟨l, hl, hin⟩ := List.mem_filterMap.mp hstore
      rcases hlayer l hl with rfl | ⟨b, hb, hl⟩
      · rw [ht] at hin
        cases hin
      · exact hb.stores store (List.mem_filterMap.mpr ⟨l, hl, hin⟩)
    · rcases hlayer l hl with rfl | ⟨b, hb, hl⟩
      · rw [ht]
        exact ⟨fun c hc => (hcases c hc).textual, nofun⟩
      · exact hb.textual l hl

theorem hasTrait_memoized {t : Trait} (ht : w.HasTrait t) {store : StoreId} (hstore : w.Owns store)
    {bottom : Bottom} (hheld : w.Has bottom.heldValues) (hbottom : bottom.Textual) (id : TraitId) :
    w.HasTrait (t.memoized id ⟨store, bottom⟩) where
  values v hv := by
    obtain ⟨l, hl, hin⟩ := List.mem_flatMap.mp hv
    rcases List.mem_cons.mp hl with rfl | hl
    · simp only [Trait.memoized, Layer.heldValues, List.flatMap_nil, List.append_nil,
        Option.map_some, Option.getD_some, List.mem_append] at hin
      rcases hin with hin | hin
      · refine ht.values v (List.mem_flatMap.mpr ⟨t.layer, List.mem_cons_self, ?_⟩)
        exact List.mem_append_left _ (List.mem_append_left _ hin)
      · exact hheld v hin
    · exact ht.values v (List.mem_flatMap.mpr ⟨l, hl, hin⟩)
  stores id hid := by
    obtain ⟨l, hl, hin⟩ := List.mem_filterMap.mp hid
    rcases List.mem_cons.mp hl with rfl | hl
    · cases hin
      exact hstore
    · exact ht.stores id (List.mem_filterMap.mpr ⟨l, hl, hin⟩)
  textual l hl := by
    rcases List.mem_cons.mp hl with rfl | hl
    · exact ⟨nofun, fun m hm => Option.some.inj hm ▸ hbottom⟩
    · exact ht.textual l hl

theorem hasTraitId_addTrait {t : Trait} (h : (w.addTrait t).2.HasTrait t) :
    (w.addTrait t).2.HasTraitId (w.addTrait t).1 :=
  ⟨t, by simp [addTrait], h⟩

theorem registryConfig_eq {rs : Array Registry} (ht : w.Twin rs) (r : RegistryId) :
    (registryConfig r {w with registries := rs}).maxDepth = (registryConfig r w).maxDepth := by
  unfold registryConfig
  rcases ht.registries.cases r with ⟨ha, hb⟩ | ⟨a, b, ha, hb, htwin⟩
  · simp [ha, hb]
  · simp [ha, hb, htwin.maxDepth]

theorem steady_defineTrait (r : RegistryId) (name : String) {data? : Option Data}
    {base? : Option Trait} {cases : List (String × Case)}
    (hdata : ∀ d, data? = some d → w.Has d.singletons) (hbase : ∀ b, base? = some b → w.HasTrait b)
    (hcases : ∀ c ∈ cases, w.HasCase c.2) :
    (defineTrait r name data? base? cases).Steady HasTraitId w := by
  refine steady_atomic fun w' rs ho ht => ?_
  have hdepth := registryConfig_eq ht r
  cases hdefine : Trait.define w'.traits.size name data? base? cases (registryConfig r w').maxDepth with
  | error f =>
    refine ⟨.error (.fault f), w', ?_, ?_, rfl, .refl w', nofun⟩
    · simp [defineTrait, hdefine]
    · simp [defineTrait, hdepth, hdefine]
  | ok t =>
    obtain ⟨htrait, hid⟩ := hasTrait_define hdefine (fun d hd => (hdata d hd).onward ho)
      (fun b hb => (hbase b hb).onward ho) fun c hc => (hcases c hc).onward ho
    have honward := onward_addTrait (w := w') hid
    refine ⟨.ok w'.traits.size, (w'.addTrait t).2, ?_, ?_, rfl, honward, ?_⟩
    · simp [defineTrait, hdefine, addTrait]
    · simp [defineTrait, hdepth, hdefine, addTrait]
    · rintro id ⟨⟩
      exact hasTraitId_addTrait (htrait.onward honward)

theorem steady_memoize {t : Trait} (ht : w.HasTrait t) {bottom : Bottom}
    (hheld : w.Has bottom.heldValues) (hbottom : bottom.Textual) :
    (memoize t bottom).Steady HasTraitId w := by
  refine steady_atomic fun w' rs ho _ => ?_
  have hstore := onward_addStore (w := w') .strong
  have htrait := hasTrait_memoized ((ht.onward ho).onward hstore) (owns_addStore .strong)
    ((hheld.onward ho).onward hstore) hbottom w'.traits.size
  have honward := onward_addTrait (w := (w'.addStore .strong).2)
    (t := t.memoized w'.traits.size ⟨(w'.addStore .strong).1, bottom⟩) rfl
  refine ⟨_, _, rfl, rfl, rfl, hstore.trans honward, ?_⟩
  rintro id ⟨⟩
  exact hasTraitId_addTrait (htrait.onward honward)

/-- A knot that is there and not tied is tied. -/
theorem tie_untied {k : KnotId} {w : World} (hknot : w.knots[k]? = some none) (v : Value) :
    tie k v w = (.ok ⟨⟩, {w with knots := w.knots.setIfInBounds k (some v)}) := by
  simp only [tie, bind_apply, get_apply, hknot, set_apply]

/-- Any other knot is not. -/
theorem tie_tied {k : KnotId} {w : World} (hknot : w.knots[k]? ≠ some none) (v : Value) :
    tie k v w = (.error (.fault (.construction .knotAlreadyTied)), w) := by
  simp only [tie, bind_apply, get_apply]
  rfl

theorem steady_tie (k : KnotId) {v : Value} (hv : w.HasValue v) :
    (tie k v).Steady (fun _ _ => True) w := by
  refine steady_atomic fun w' rs ho _ => ?_
  by_cases hknot : w'.knots[k]? = some none
  · have hset : w'.Onward {w' with knots := w'.knots.setIfInBounds k (some v)} := by
      refine onward_knots (fun i u hi => ?_) fun i u hi => ?_
      · rw [Array.getElem?_setIfInBounds]
        split
        · next hik =>
          rw [← hik, hknot] at hi
          cases hi
        · exact hi
      · rw [Array.getElem?_setIfInBounds] at hi
        split at hi
        · split at hi <;> cases hi
          exact .inr (HasValue.onward hv ho)
        · exact .inl hi
    exact ⟨_, _, tie_untied hknot v, tie_untied (w := {w' with registries := rs}) hknot v, rfl, hset,
      fun _ _ => trivial⟩
  · exact ⟨_, w', tie_tied hknot v, tie_tied (w := {w' with registries := rs}) hknot v, rfl,
      .refl w', nofun⟩

end Run

end OpenVariants

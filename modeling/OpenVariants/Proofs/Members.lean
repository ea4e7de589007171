import OpenVariants.Proofs.Membership
import OpenVariants.Proofs.Precedence
import OpenVariants.Proofs.Rebuilding
import OpenVariants.Proofs.Singletons

/-! Members of views.

A facade is composed only if its traits are apart: no two have one name, and none has the
name of a field of any variant, inherited ones included (`Facade.Apart`). The views that it
gives are of instances whose fields are fields of its variants (`Holder.Views.shows`), at
that moment and as long as the instances live. So a name that is a field of a view's variant
is no trait, and what a view has under a name never hides anything else
(`View.Members`). -/
namespace OpenVariants

theorem Tag.fieldIndex?_eq_none {tag : Tag} {name : String} :
    tag.fieldIndex? name = none ↔ name ∉ tag.fields := by
  rw [← Option.isNone_iff_eq_none, fieldIndex?_isNone, decide_eq_true_iff]

theorem Tag.fieldIndex?_isSome {tag : Tag} {name : String} :
    (tag.fieldIndex? name).isSome = true ↔ name ∈ tag.fields := by
  rw [Option.isSome_iff_ne_none, ne_eq, fieldIndex?_eq_none, not_not]

/-- If a list is built up one by one, all of it fits, or there is a first one that does not. -/
theorem all_or_first (fits : List α → Prop) (clash : List α → α → Prop) (hnil : fits [])
    (hstep : ∀ before x, fits before → fits (before ++ [x]) ∨ clash before x) (l : List α) :
    fits l ∨ ∃ before x after, l = before ++ x :: after ∧ fits before ∧ clash before x := by
  induction l using List.reverseRecOn with
  | nil => exact .inl hnil
  | append_singleton init x ih =>
    rcases ih with hfits | ⟨before, y, after, rfl, hfits, hclash⟩
    · rcases hstep init x hfits with hnext | hclash
      · exact .inl hnext
      · exact .inr ⟨init, x, [], rfl, hfits, hclash⟩
    · exact .inr ⟨before, y, after ++ [x], by simp, hfits, hclash⟩

/-! ### Traits that are apart -/

namespace Facade

/-- No two of the traits have one name, and none has the name of a field. -/
structure Apart (d : Data) (traits : List Trait) : Prop where
  names : (traits.map Trait.name).Nodup
  fields : ∀ t ∈ traits, ∀ v ∈ d.variants, t.name ∉ v.tag.fields

/-- Why a trait cannot be bound after some others. -/
inductive Clash (d : Data) (before : List Trait) (t : Trait) : Fault → Prop
  | duplicate {u : Trait} (hu : u ∈ before) (hname : u.name = t.name) :
    Clash d before t (.composition (.duplicateMember t.name))
  /-- The variant is the first one with the field. -/
  | field {earlier later : List Variant} {v : Variant} (hnew : ∀ u ∈ before, u.name ≠ t.name)
    (hvariants : d.variants = earlier ++ v :: later)
    (hfirst : ∀ u ∈ earlier, t.name ∉ u.tag.fields) (hfield : t.name ∈ v.tag.fields) :
    Clash d before t (.composition (.nameClash t.name v.name))

/-- What is bound for traits that are apart. -/
def bindings (traits : List Trait) : List (String × TraitId) :=
  traits.map fun t => (t.name, t.layer.id)

section Composing
variable {d : Data} {before after traits : List Trait} {t : Trait} {fault : Fault}

theorem Apart.nil (d : Data) : Apart d [] := ⟨List.nodup_nil, by simp⟩

theorem apart_concat : Apart d (before ++ [t]) ↔
    Apart d before ∧ (∀ u ∈ before, u.name ≠ t.name) ∧ ∀ v ∈ d.variants, t.name ∉ v.tag.fields := by
  constructor
  · rintro ⟨hnames, hfields⟩
    rw [List.map_append, List.nodup_append] at hnames
    refine ⟨⟨hnames.1, fun u hu => hfields u (List.mem_append_left _ hu)⟩, fun u hu => ?_,
      hfields t (by simp)⟩
    exact hnames.2.2 u.name (List.mem_map_of_mem hu) t.name (by simp)
  · rintro ⟨⟨hnames, hfields⟩, hnew, hfree⟩
    refine ⟨?_, fun u hu => ?_⟩
    · rw [List.map_append, List.nodup_append]
      refine ⟨hnames, List.nodup_singleton _, fun a ha b hb => ?_⟩
      obtain ⟨u, hu, rfl⟩ := List.mem_map.mp ha
      cases List.mem_singleton.mp hb
      exact hnew u hu
    · rcases List.mem_append.mp hu with hu | hu
      · exact hfields u hu
      · exact List.mem_singleton.mp hu ▸ hfree

theorem Apart.of_append (h : Apart d (before ++ after)) : Apart d before where
  names := (List.map_append ▸ h.names).of_append_left
  fields t ht := h.fields t (List.mem_append_left _ ht)

/-- Traits are apart, or there is a first one that clashes with those before it. -/
theorem apart_or_clash (d : Data) (traits : List Trait) :
    Apart d traits ∨ ∃ before t after, traits = before ++ t :: after ∧ Apart d before ∧
      ∃ fault, Clash d before t fault := by
  refine all_or_first _ _ (Apart.nil d) (fun before t hapart => ?_) traits
  by_cases hdup : ∃ u ∈ before, u.name = t.name
  · obtain ⟨u, hu, hname⟩ := hdup
    exact .inr ⟨_, .duplicate hu hname⟩
  have hnew : ∀ u ∈ before, u.name ≠ t.name := fun u hu hname => hdup ⟨u, hu, hname⟩
  cases hfind : d.variants.find? fun v => (v.tag.fieldIndex? t.name).isSome with
  | none =>
    refine .inl (apart_concat.mpr ⟨hapart, hnew, fun v hv => ?_⟩)
    exact fun hmem => List.find?_eq_none.mp hfind v hv (Tag.fieldIndex?_isSome.mpr hmem)
  | some v =>
    obtain ⟨hfield, earlier, later, hvariants, hfirst⟩ := List.find?_eq_some_iff_append.mp hfind
    refine .inr ⟨_, .field hnew hvariants (fun u hu hmem => ?_) (Tag.fieldIndex?_isSome.mp hfield)⟩
    simpa [Tag.fieldIndex?_isSome.mpr hmem] using hfirst u hu

theorem any_bindings : (bindings before).any (·.1 == t.name) = true ↔ ∃ u ∈ before, u.name = t.name := by
  simp [bindings]

theorem bindTraits_cons (hnew : ∀ u ∈ before, u.name ≠ t.name) :
    bindTraits d (bindings before) (t :: after) =
      match d.variants.find? fun v => (v.tag.fieldIndex? t.name).isSome with
      | some v => .error (.composition (.nameClash t.name v.name))
      | none => bindTraits d (bindings (before ++ [t])) after := by
  have hno : ¬(bindings before).any (·.1 == t.name) = true := by
    rw [any_bindings]
    rintro ⟨u, hu, hname⟩
    exact hnew u hu hname
  rw [bindTraits, if_neg hno, bindings, bindings, List.map_append]
  rfl

/-- A trait that clashes ends the composition. -/
theorem bindTraits_clash (h : Clash d before t fault) :
    bindTraits d (bindings before) (t :: after) = .error fault := by
  cases h with
  | @duplicate u hu hname => rw [bindTraits, if_pos (any_bindings.mpr ⟨u, hu, hname⟩)]
  | @field earlier later v hnew hvariants hfirst hfield =>
    have hfind : d.variants.find? (fun v => (v.tag.fieldIndex? t.name).isSome) = some v := by
      refine List.find?_eq_some_iff_append.mpr
        ⟨Tag.fieldIndex?_isSome.mpr hfield, earlier, later, hvariants, fun u hu => ?_⟩
      rw [Tag.fieldIndex?_eq_none.mpr (hfirst u hu)]
      rfl
    rw [bindTraits_cons hnew, hfind]

/-- Traits that are apart are bound one after the other. -/
theorem bindTraits_apart (h : Apart d (before ++ after)) (rest : List Trait) :
    bindTraits d (bindings before) (after ++ rest) = bindTraits d (bindings (before ++ after)) rest := by
  induction after generalizing before with
  | nil => rw [List.append_nil, List.nil_append]
  | cons t after ih =>
    rw [List.append_cons] at h ⊢
    obtain ⟨-, hnew, hfree⟩ := apart_concat.mp h.of_append
    have hfind : d.variants.find? (fun v => (v.tag.fieldIndex? t.name).isSome) = none := by
      refine List.find?_eq_none.mpr fun v hv hsome => ?_
      exact hfree v hv (Tag.fieldIndex?_isSome.mp hsome)
    rw [List.cons_append, bindTraits_cons hnew, hfind]
    exact ih h

theorem compose_of_apart (h : Apart d traits) : compose d traits = .ok ⟨d, bindings traits⟩ := by
  have hbind : bindTraits d [] traits = .ok (bindings traits) := by
    have hall := @bindTraits_apart d [] traits h []
    rw [List.append_nil, List.nil_append] at hall
    exact hall
  rw [compose, hbind]

theorem compose_of_clash (h : Apart d before) (hclash : Clash d before t fault) :
    compose d (before ++ t :: after) = .error fault := by
  have hbind : bindTraits d [] (before ++ t :: after) = .error fault := by
    have hskip := @bindTraits_apart d [] before h (t :: after)
    rw [List.nil_append, bindTraits_clash hclash] at hskip
    exact hskip
  rw [compose, hbind]

/-- A facade is composed of traits that are apart, and of no others. -/
theorem compose_eq_ok {f : Facade} :
    compose d traits = .ok f ↔ f = ⟨d, bindings traits⟩ ∧ Apart d traits := by
  constructor
  · intro h
    rcases apart_or_clash d traits with hapart | ⟨before, t, after, rfl, hapart, fault, hclash⟩
    · rw [compose_of_apart hapart] at h
      cases h
      exact ⟨rfl, hapart⟩
    · rw [compose_of_clash hapart hclash] at h
      cases h
  · rintro ⟨rfl, hapart⟩
    exact compose_of_apart hapart

/-- A composition fails for the first trait that clashes with those before it. -/
theorem compose_eq_error :
    compose d traits = .error fault ↔
      ∃ before t after, traits = before ++ t :: after ∧ Apart d before ∧ Clash d before t fault := by
  constructor
  · intro h
    rcases apart_or_clash d traits with hapart | ⟨before, t, after, rfl, hapart, fault', hclash⟩
    · rw [compose_of_apart hapart] at h
      cases h
    · rw [compose_of_clash hapart hclash] at h
      cases h
      exact ⟨before, t, after, rfl, hapart, hclash⟩
  · rintro ⟨before, t, after, rfl, hapart, hclash⟩
    exact compose_of_clash hapart hclash

/-- Under any other name nothing is bound. -/
theorem trait?_eq_none (d : Data) {name : String} (h : ∀ t ∈ traits, t.name ≠ name) :
    Facade.trait? ⟨d, bindings traits⟩ name = none := by
  have hfind : (bindings traits).find? (·.1 == name) = none := by
    rw [bindings, List.find?_eq_none]
    intro p hp
    obtain ⟨t, ht, rfl⟩ := List.mem_map.mp hp
    simpa using h t ht
  rw [trait?, hfind]
  rfl

end Composing

end Facade

/-! ### The case behind a call -/

/-- What lives stays as it is whatever a body does by itself. -/
theorem stable_object (id : ObjectId) (o : Object) : Stable fun w => w.heap.object? id = some o where
  push w new ho := Heap.extends_push w.heap new id o ho
  construct w r tag fields ho := by
    obtain ⟨registries, h | h⟩ := World.canonicalize_frame w r tag fields <;> rw [h]
    · exact ho
    · exact Heap.extends_push w.heap _ id o ho
  log _ _ ho := ho
  nesting _ _ ho := ho

/-- No memo table lets anything die that was there before the call. -/
theorem keeps_object (id : ObjectId) (o : Object) (memo : Memo) (path : List Key) :
    memo.Keeps (fun w => w.heap.object? id = some o) path where
  set _ _ ho := ho
  erase _ ho := ho
  reclaim w w' ho ho' := by
    rw [World.object?_reclaimed, if_pos (.inl (Heap.lt_size ho)), ho']

namespace Trait

/-- What comes of a call whose receiver has a case. It stops before it looks for the case, or
it finds the case and runs it. -/
inductive Outcome (perform : Performer) (t : Trait) (found : Resolution) (receiver : Value)
    (rest : List Value) (w : World) : Except Stop Value → Prop
  /-- As many calls are active as the trait allows. -/
  | limit (hfull : t.layer.maxDepth ≤ w.nesting.current) :
    Outcome perform t found receiver rest w
      (.error (.fault (.dispatch (.recursionLimit t.name t.layer.maxDepth))))
  | hit {memo : Memo} {path : List Key} {v : Value} (hmemo : t.layer.memo? = some memo)
    (hpath : Key.path (receiver :: rest) = .ok path) (hhit : w.stored? memo.store path = some v) :
    Outcome perform t found receiver rest w (.ok v)
  | bottom {memo : Memo} {stop : Stop} {w' : World} (hmemo : t.layer.memo? = some memo)
    (hbottom : memo.bottom.run perform (receiver :: rest) {w with nesting := w.nesting.inside} =
      (.error stop, w')) :
    Outcome perform t found receiver rest w (.error stop)
  | ran {w' : World} (hsearches : t.Searches perform receiver rest w w') :
    Outcome perform t found receiver rest w
      (found.case.run perform ⟨t, found.owner⟩ found.name (receiver :: rest) w').1

section Calls
variable {n : Nat} {t : Trait} {found : Resolution} {receiver : Value} {rest : List Value}
  {w w' : World} {tag : Tag} {values : List Value}

/-- A receiver still lives when the search for its case begins. -/
theorem Searches.instance (h : t.Searches (perform n) receiver rest w w')
    (hinst : w.heap.instance? receiver = some (tag, values)) :
    w'.heap.instance? receiver = some (tag, values) := by
  cases h with
  | plain => exact hinst
  | @miss memo path b w₁ hroom hmemo hpath hmiss hbottom =>
    obtain ⟨id, rfl, ho⟩ := Heap.instance?_eq_some.mp hinst
    have hstable := stable_object id (.content (.fields tag values))
    have hkept := (Bottom.agree_run hstable
      (agree_perform hstable (fun memo path _ => keeps_object id _ memo path) n) (.inst id :: rest)
      memo.bottom {w with nesting := w.nesting.inside} ho).2
    rw [hbottom] at hkept
    exact Heap.instance?_inst.mpr
      ((keeps_object id _ memo path).reclaim w (w₁.storeSet memo.store path b) ho hkept)

theorem Searches.outcome (h : t.Searches (perform n) receiver rest w w')
    (hinst : w.heap.instance? receiver = some (tag, values))
    (hfound : t.resolve? tag.name = some found) :
    t.Outcome (perform n) found receiver rest w (t.call (perform n) (receiver :: rest) w).1 := by
  have hcase : t.dispatch (perform n) receiver (receiver :: rest) w' =
      found.case.run (perform n) ⟨t, found.owner⟩ found.name (receiver :: rest) w' := by
    rw [dispatch_eq]
    simp only [World.receiver, h.instance hinst, Receiver.caseName, hfound]
  rw [h.result, hcase]
  exact .ran h

/-- With room for it a call through a memo table does what the table does. -/
theorem call_of_memo {perform : Performer} {memo : Memo}
    (hroom : ¬t.layer.maxDepth ≤ w.nesting.current) (hmemo : t.layer.memo? = some memo) :
    (t.call perform (receiver :: rest) w).1 =
      (memo.call perform t receiver (receiver :: rest) {w with nesting := w.nesting.inside}).1 := by
  simp only [call, hmemo, Moment.guarded_apply, if_neg hroom]
  rfl

/-- A call on an instance whose name resolves never fails for want of a case. -/
theorem outcome_call (hinst : w.heap.instance? receiver = some (tag, values))
    (hfound : t.resolve? tag.name = some found) (n : Nat) (rest : List Value) :
    t.Outcome (perform n) found receiver rest w (t.call (perform n) (receiver :: rest) w).1 := by
  by_cases hfull : t.layer.maxDepth ≤ w.nesting.current
  · have hcall : t.call (perform n) (receiver :: rest) w =
        (.error (.fault (.dispatch (.recursionLimit t.name t.layer.maxDepth))), w) := by
      simp only [call, Moment.guarded_apply, if_pos hfull]
    rw [hcall]
    exact .limit hfull
  cases hmemo : t.layer.memo? with
  | none => exact (Searches.plain hfull hmemo).outcome hinst hfound
  | some memo =>
    have hcall : (t.call (perform n) (receiver :: rest) w).1 = (memo.call (perform n) t receiver
        (receiver :: rest) {w with nesting := w.nesting.inside}).1 := call_of_memo hfull hmemo
    have hpath : Key.path (receiver :: rest) = .ok ((receiver :: rest).map Key.ofValue) := rfl
    simp only [Memo.call_eq, hpath] at hcall
    cases hstored : World.stored? memo.store ((receiver :: rest).map Key.ofValue)
      {w with nesting := w.nesting.inside} with
    | some v =>
      rw [hcall, hstored]
      exact .hit hmemo hpath hstored
    | none =>
      rcases hbottom : memo.bottom.run (perform n) (receiver :: rest)
        {w with nesting := w.nesting.inside} with ⟨stop | b, w₁⟩
      · simp only [hstored, Memo.fill_of_bottom hbottom] at hcall
        rw [hcall]
        exact .bottom hmemo hbottom
      · exact (Searches.miss hfull hmemo hpath hstored hbottom).outcome hinst hfound

end Calls

end Trait

/-! ### Views -/

/-- The ways to a view of a facade. -/
inductive Facade.Way where
  /-- Construct a variant of this name. -/
  | construct (name : String) (form : Form)
  | unit (name : String)
  | wrap (v : Value)

namespace Holder

/-- A facade gives a view, and the program goes on from there. -/
inductive Views (k : Holder) (f : Facade) : Facade.Way → View → Holder → Prop
  /-- Of a new or a known instance, whatever it is. -/
  | construct {name : String} {v : Variant} {form : Form} {x : Value} {w : World} {view : View}
    (hname : f.data.variant name = .ok v) (hin : ∀ a ∈ form.values, k.world.heap.Proper a)
    (hrun : form.run v k.world = (.ok x, w)) (hview : f.view x w = .ok view) :
    Views k f (.construct name form) view (k.withWorld w)
  | unit {name : String} {view : View} (hview : f.unit name = .ok view) :
    Views k f (.unit name) view k
  | wrap {x : Value} {view : View} (hview : f.wrap x k.world = .ok view) :
    Views k f (.wrap x) view k

/-- There are ids of tags to spare where a way constructs: then what is known under the id of
a tag is an instance of that tag. -/
def Spares (k : Holder) (f : Facade) : Facade.Way → Prop
  | .construct name _ => ∀ v, f.data.variant name = .ok v →
    k.client.variantCount v.registry < UInt32.size
  | .unit _ | .wrap _ => True

section Seats
variable {k k' : Holder} {v : Variant}

/-- What is in hand was so before, or a declaration seated it. -/
theorem Sound.has_or_seated (hs : k.Sound) (h : Step k k') (hv : k'.Has v) :
    k.Has v ∨ v.Seated k'.client.declared k'.world.heap := by
  cases h with
  | client c h hheld =>
    cases h with
    | declare r name base? specs d w hr hb hrun =>
      rcases hv with hv | ⟨e, he, hv⟩
      · exact .inl (.inl hv)
      rcases List.mem_cons.mp he with rfl | he
      · obtain ⟨-, -, -, hvariants, -⟩ := World.declare_ok hrun
        rw [hvariants] at hv
        rcases List.mem_append.mp hv with hv | hv
        · cases base? with
          | none => cases hv
          | some base => exact .inl (.inr ⟨base, hb base rfl, hv⟩)
        · exact .inr (hs.declare_seated hr hrun hv)
      · exact .inl (.inr ⟨e, he, hv⟩)
    | release heap data hd hr =>
      rcases hv with hv | ⟨e, he, hv⟩
      · exact .inl (.inl hv)
      · exact .inl (.inr ⟨e, hd he, hv⟩)
    | _ => exact .inl hv
  | clone d u hd hu =>
    rcases hv with hv | hv
    · rcases List.mem_cons.mp hv with rfl | hv
      · exact .inl (.inr ⟨d, hd, hu⟩)
      · exact .inl (.inl hv)
    · exact .inl (.inr hv)
  | construct => exact .inl hv
  | letGo variants hvariants =>
    rcases hv with hv | hv
    · exact .inl (.inl (hvariants hv))
    · exact .inl (.inr hv)

/-- Whatever variant is in hand, its singleton is the living instance under its path. -/
theorem Reachable.seated (hk : k.Reachable) (hv : k.Has v) :
    v.Seated k.client.declared k.world.heap := by
  induction hk with
  | refl =>
    rcases hv with hv | ⟨d, hd, -⟩
    · cases hv
    · cases hd
  | tail hsteps hstep ih =>
    have hs := Reachable.sound hsteps
    rcases hs.has_or_seated hstep hv with hbefore | hseated
    · refine (ih hbefore).later hstep.declared_grows (hs.before hstep) fun id hid => ?_
      exact Heap.holds_iff.mp (((hs.step hstep).has hv).inst id hid).1.holds id rfl
    · exact hseated

/-- A seated singleton has no fields, whatever its tag. -/
theorem Reachable.fields_of_singleton (hk : k.Reachable) (hv : k.Has v) {id : ObjectId}
    (hid : v.singleton? = some id) :
    ∃ tag values, k.world.heap.instance? (.inst id) = some (tag, values) ∧ tag.fields = [] := by
  obtain ⟨tag, values, hinst, -, hpath⟩ := hk.seated hv id hid
  simp only [World.canonicalPath, List.cons.injEq, List.map_nil, List.map_eq_nil_iff] at hpath
  have hlength := (hk.fields_of_instance hinst).2
  rw [hpath.2] at hlength
  exact ⟨tag, values, hinst, List.length_eq_zero_iff.mp hlength.symm⟩

end Seats

/-- A view of a facade shows a living instance that has no field but those of the facade's
variants. -/
structure Shows (k : Holder) (f : Facade) (view : View) (tag : Tag) (values : List Value) : Prop where
  facade : view.facade = f
  instance? : k.world.heap.instance? view.value = some (tag, values)
  fields : ∀ x ∈ tag.fields, ∃ v ∈ f.data.variants, x ∈ v.tag.fields

section Showing
variable {k k₁ k' : Holder} {f : Facade} {view : View} {tag : Tag} {values : List Value}

/-- With ids of tags to spare a construction gives an instance of its variant. -/
theorem Sound.shows_of_construct (hs : k.Sound) (hd : f.data ∈ k.data) {name : String} {v : Variant}
    {form : Form} {x : Value} {w : World} (hname : f.data.variant name = .ok v)
    (hcount : k.client.variantCount v.registry < UInt32.size)
    (hin : ∀ a ∈ form.values, k.world.heap.Proper a) (hrun : form.run v k.world = (.ok x, w)) :
    ∃ id values, x = .inst id ∧ (k.withWorld w).Shows f ⟨f, id⟩ v.tag values := by
  have hv := Data.mem_variants hname
  obtain ⟨-, values, -, hinst, -⟩ := hs.construct_inst (.inr ⟨_, hd, hv⟩) hcount hin hrun
  obtain ⟨id, rfl, -⟩ := Heap.instance?_eq_some.mp hinst
  exact ⟨id, values, rfl, rfl, hinst, fun x hx => ⟨v, hv, hx⟩⟩

theorem Sound.shows_of_wrap (hs : k.Sound) (hd : f.data ∈ k.data) {x : Value}
    (hview : f.wrap x k.world = .ok view) : ∃ tag values, k.Shows f view tag values := by
  obtain ⟨id, tag, values, rfl, hinst, htag, rfl⟩ := Facade.wrap_ok hview
  obtain ⟨v, hv, rfl⟩ := hs.client.exists_variant hd ⟨values, hinst, htag⟩
  exact ⟨v.tag, values, rfl, hinst, fun x hx => ⟨v, hv, hx⟩⟩

theorem Reachable.shows_of_unit (hk : k.Reachable) (hd : f.data ∈ k.data) {name : String}
    (hview : f.unit name = .ok view) : ∃ tag values, k.Shows f view tag values := by
  rw [Facade.unit, Data.unit] at hview
  cases hname : f.data.variant name with
  | error fault =>
    rw [hname] at hview
    cases hview
  | ok v =>
    rw [hname] at hview
    cases hid : v.singleton? with
    | none => simp [Variant.singleton, hid, bind, Except.bind] at hview
    | some id =>
      have heq : (⟨f, id⟩ : View) = view := by
        simpa [Variant.singleton, hid, bind, Except.bind] using hview
      subst heq
      obtain ⟨tag, values, hinst, hnone⟩ :=
        hk.fields_of_singleton (.inr ⟨f.data, hd, Data.mem_variants hname⟩) hid
      exact ⟨tag, values, rfl, hinst, by simp [hnone]⟩

/-- Every view of a facade shows an instance with fields of the facade's variants, when it is
given. -/
theorem Views.shows {way : Facade.Way} (h : k.Views f way view k₁) (hk : k.Reachable)
    (hd : f.data ∈ k.data) (hspare : k.Spares f way) :
    Steps k k₁ ∧ ∃ tag values, k₁.Shows f view tag values := by
  cases h with
  | @construct name v form x w _ hname hin hrun hview =>
    have hstep := hk.sound.construct (.inr ⟨f.data, hd, Data.mem_variants hname⟩) hin hrun
    obtain ⟨id, values, rfl, hshows⟩ :=
      hk.sound.shows_of_construct hd hname (hspare v hname) hin hrun
    cases hview
    exact ⟨.single hstep, v.tag, values, hshows⟩
  | unit hview => exact ⟨.refl, hk.shows_of_unit hd hview⟩
  | wrap hview => exact ⟨.refl, hk.sound.shows_of_wrap hd hview⟩

/-- A view shows the same as long as its instance lives. -/
theorem Shows.later (h : k.Shows f view tag values) (hs : k.Sound) (hsteps : Steps k k')
    (halive : k'.world.heap.alive view.inst = true) : k'.Shows f view tag values := by
  have ho := (hs.stepsBefore hsteps).object?_of_alive (Heap.instance?_inst.mp h.instance?) halive
  exact ⟨h.facade, Heap.instance?_inst.mpr ho, h.fields⟩

end Showing

end Holder

/-! ### Fields by name -/

section Reading
variable {w : World} {id : ObjectId} {tag : Tag} {values : List Value} {index : Nat} {stored : Value}

theorem readAt_eq (hinst : w.heap.instance? (.inst id) = some (tag, values))
    (hstored : values[index]? = some stored) (perform : Performer) :
    readAt perform id index w = readField perform tag index stored w := by
  simp only [readAt, Run.bind_apply, Run.get_apply, hinst, indexedRead, hstored]

theorem run_expectInstance (hinst : w.heap.instance? (.inst id) = some (tag, values))
    (perform : Performer) (frame : Option Frame) :
    (Program.expectInstance (.inst id)).run perform frame w = (.ok (id, tag, values), w) := by
  have hanswer : w.answer frame (.content (.inst id)) = some (.fields tag values) := by
    obtain ⟨_, -, hcontent⟩ := Heap.content?_of_instance hinst
    exact hcontent
  rw [Program.expectInstance, Program.run_bind, Run.bind_apply, Program.run_query, hanswer]
  rfl

/-- A request to read a field is answered with the field. -/
theorem run_read (hinst : w.heap.instance? (.inst id) = some (tag, values))
    (hstored : values[index]? = some stored) (n : Nat) (frame : Option Frame) :
    (Program.perform (.read id index)).run (perform (n + 1)) frame w =
      readField (perform n) tag index stored w := by
  simp only [Program.perform, Program.run, perform, answering, readAt_eq hinst hstored]
  rcases readField (perform n) tag index stored w with ⟨(_ | _) | v, w'⟩ <;> rfl

/-- A body that reads a field by name gets it. -/
theorem run_readField {name : String}
    (hinst : w.heap.instance? (.inst id) = some (tag, values))
    (hfield : tag.fieldIndex? name = some index) (hstored : values[index]? = some stored) (n : Nat)
    (frame : Option Frame) :
    (Program.readField (.inst id) name).run (perform (n + 1)) frame w =
      readField (perform n) tag index stored w := by
  rw [Program.readField, Program.run_bind, Run.bind_apply, run_expectInstance hinst]
  simp only [hfield]
  exact run_read hinst hstored n frame

end Reading

/-! ### Members -/

namespace View

/-- The name is refused in every use, for one cause and before anything is done. -/
structure Fails (view : View) (name : String) (w : World) (fault : Fault) : Prop where
  member : ∀ perform, view.member perform name w = (.error (.fault fault), w)
  method : ∀ perform, view.method perform name w = (.error (.fault fault), w)
  call : ∀ perform args, view.call perform name args w = (.error (.fault fault), w)

/-- The name gives the field at its position: what is stored there or, of a lazy, what that
gives or fails with. A body that reads the field by name gets the same. -/
structure GivesField (view : View) (name : String) (w : World) (tag : Tag) (index : Nat)
    (stored : Value) : Prop where
  member : ∀ perform,
    view.member perform name w = (Member.field <$> readField perform tag index stored) w
  read : ∀ n frame, (Program.readField view.value name).run (perform (n + 1)) frame w =
    readField (perform n) tag index stored w

/-- The name gives the trait as a method. Calling it is calling the trait on the instance,
followed by the arguments, and that call finds a case. -/
structure GivesMethod (view : View) (t : Trait) (w : World) (found : Resolution) : Prop where
  member : ∀ perform,
    view.member perform t.name w = (.ok (.method ⟨t.layer.id, t.name, view.value⟩), w)
  call : ∀ perform args, view.call perform t.name args w =
    perform none (.call t.layer.id (view.value :: args)) w
  outcome : ∀ n args,
    view.call (perform (n + 1)) t.name args w = t.call (perform n) (view.value :: args) w ∧
      t.Outcome (perform n) found view.value args w (view.call (perform (n + 1)) t.name args w).1

/-- What a view has under each name: a field of its instance, which is no trait then; else a
trait with a case for the instance; else nothing, because the trait has no case or because
there is no trait. -/
structure Members (view : View) (traits : List Trait) (w : World) (tag : Tag)
    (values : List Value) : Prop where
  field : ∀ x ∈ tag.fields, (∀ t ∈ traits, t.name ≠ x) ∧
    ∃ index stored, tag.fields[index]? = some x ∧ values[index]? = some stored ∧
      view.GivesField x w tag index stored
  bound : ∀ t ∈ traits, t.resolves tag.name = true →
    ∃ found, t.resolve? tag.name = some found ∧ view.GivesMethod t w found
  missing : ∀ t ∈ traits, t.resolves tag.name = false →
    view.Fails t.name w (.composition (.missingCase t.name tag.name))
  unknown : ∀ x, x ∉ tag.fields → (∀ t ∈ traits, t.name ≠ x) →
    view.Fails x w (.composition (.unknownMember tag.name x))

section Naming
variable {view : View} {name : String} {w : World} {tag : Tag} {values : List Value} {t : Trait}

/-- Methods are members, and calls are calls of methods. -/
theorem fails_of_member {fault : Fault}
    (h : ∀ perform, view.member perform name w = (.error (.fault fault), w)) :
    view.Fails name w fault := by
  have hmethod : ∀ perform, view.method perform name w = (.error (.fault fault), w) := by
    intro perform
    simp only [method, Run.bind_apply, h perform]
  refine ⟨h, hmethod, fun perform args => ?_⟩
  simp only [call, Run.bind_apply, hmethod perform]

theorem member_unknown (hinst : w.heap.instance? view.value = some (tag, values))
    (hfield : tag.fieldIndex? name = none) (hbound : view.facade.trait? name = none) :
    view.Fails name w (.composition (.unknownMember tag.name name)) := by
  refine fails_of_member fun perform => ?_
  simp only [member, Run.bind_apply, Run.get_apply, hinst, hfield, hbound, Run.fail_apply]

theorem givesField (hinst : w.heap.instance? view.value = some (tag, values)) {index : Nat}
    {stored : Value} (hfield : tag.fieldIndex? name = some index)
    (hstored : values[index]? = some stored) : view.GivesField name w tag index stored := by
  refine ⟨fun perform => ?_, fun n frame => run_readField hinst hfield hstored n frame⟩
  have hread := readAt_eq hinst hstored perform
  simp only [member, Run.bind_apply, Run.get_apply, hinst, hfield, hread, Run.map_apply]
  rfl

theorem givesMethod (hinst : w.heap.instance? view.value = some (tag, values))
    (hfield : tag.fieldIndex? t.name = none) (hbound : view.facade.trait? t.name = some t.layer.id)
    (ht : w.traits[t.layer.id]? = some t) {found : Resolution}
    (hfound : t.resolve? tag.name = some found) : view.GivesMethod t w found := by
  have hresolves : t.resolves tag.name = true := by rw [Trait.resolves_eq, hfound]; rfl
  have hmember : ∀ perform, view.member perform t.name w =
      (.ok (.method ⟨t.layer.id, t.name, view.value⟩), w) := by
    intro perform
    rw [member_eq perform hinst hfield hbound ht, if_pos hresolves]
  have hcall : ∀ perform args, view.call perform t.name args w =
      perform none (.call t.layer.id (view.value :: args)) w := by
    intro perform args
    simp only [call, method, Run.bind_apply, hmember perform, Run.pure_apply, Method.call]
  refine ⟨hmember, hcall, fun n args => ?_⟩
  have htrait : view.call (perform (n + 1)) t.name args w =
      t.call (perform n) (view.value :: args) w := by
    simp only [hcall, perform, answering, Run.bind_apply, Run.get_apply, ht]
  rw [htrait]
  exact ⟨rfl, t.outcome_call hinst hfound n args⟩

end Naming

end View

namespace Facade

/-- The views of a facade of some traits have members that never shadow each other. -/
structure Exposes (f : Facade) (traits : List Trait) : Prop where
  /-- Whatever view it is, when the facade gives it and whenever it is used after that. -/
  views : ∀ (k k₁ k' : Holder) (way : Way) (view : View), k.Reachable → f.data ∈ k.data →
    k.Views f way view k₁ → k.Spares f way →
    Holder.Steps k₁ k' → k'.world.heap.alive view.inst = true →
    (∀ t ∈ traits, k'.world.traits[t.layer.id]? = some t) →
    view.facade = f ∧ ∃ tag values, k'.world.heap.instance? view.value = some (tag, values) ∧
      view.Members traits k'.world tag values
  /-- With ids of tags to spare every construction that succeeds gives a view of an instance of
  its variant. -/
  constructs : ∀ (k : Holder) (name : String) (v : Variant) (form : Form) (x : Value) (w : World),
    k.Reachable → f.data ∈ k.data → f.data.variant name = .ok v →
    k.client.variantCount v.registry < UInt32.size → (∀ a ∈ form.values, k.world.heap.Proper a) →
    form.run v k.world = (.ok x, w) →
    ∃ view values, k.Views f (.construct name form) view (k.withWorld w) ∧ view.value = x ∧
      w.heap.instance? x = some (v.tag, values)

section Exposing
variable {f : Facade} {d : Data} {traits : List Trait}

/-- What a view shows has these members, if its traits are those of the world. -/
theorem members_of_shows (hf : compose d traits = .ok f) {k : Holder} (hk : k.Reachable)
    {view : View} {tag : Tag} {values : List Value} (hshows : k.Shows f view tag values)
    (htraits : ∀ t ∈ traits, k.world.traits[t.layer.id]? = some t) :
    view.Members traits k.world tag values := by
  obtain ⟨rfl, hapart⟩ := compose_eq_ok.mp hf
  obtain ⟨hfacade, hinst, hfields⟩ := hshows
  obtain ⟨hnodup, hlength⟩ := hk.fields_of_instance hinst
  have hfree : ∀ t ∈ traits, t.name ∉ tag.fields := by
    intro t ht hmem
    obtain ⟨v, hv, hfield⟩ := hfields _ hmem
    exact hapart.fields t ht v hv hfield
  have hbound : ∀ t ∈ traits, view.facade.trait? t.name = some t.layer.id := fun t ht =>
    hfacade ▸ (compose_ok hf ht).2.1
  refine ⟨fun x hx => ⟨fun t ht hname => hfree t ht (hname ▸ hx), ?_⟩, fun t ht hresolves => ?_,
    fun t ht hlacks => View.fails_of_member fun perform => ?_, fun x hx hnone => ?_⟩
  · obtain ⟨index, hi, rfl⟩ := List.getElem_of_mem hx
    have hvalue : index < values.length := hlength ▸ hi
    exact ⟨index, values[index], List.getElem?_eq_getElem hi, List.getElem?_eq_getElem hvalue,
      View.givesField hinst (Tag.fieldIndex?_getElem hnodup hi) (List.getElem?_eq_getElem hvalue)⟩
  · rw [Trait.resolves_eq] at hresolves
    obtain ⟨found, hfound⟩ := Option.isSome_iff_exists.mp hresolves
    exact ⟨found, hfound, View.givesMethod hinst (Tag.fieldIndex?_eq_none.mpr (hfree t ht))
      (hbound t ht) (htraits t ht) hfound⟩
  · rw [View.member_eq perform hinst (Tag.fieldIndex?_eq_none.mpr (hfree t ht)) (hbound t ht)
      (htraits t ht), hlacks]
    rfl
  · exact View.member_unknown hinst (Tag.fieldIndex?_eq_none.mpr hx)
      (hfacade ▸ trait?_eq_none d hnone)

theorem exposes_of_compose (hf : compose d traits = .ok f) : f.Exposes traits where
  views k k₁ k' way view hk hd hviews hspare hsteps halive htraits := by
    obtain ⟨hgiven, tag, values, hshows⟩ := hviews.shows hk hd hspare
    have hk₁ : k₁.Reachable := hk.trans hgiven
    have hlater := hshows.later hk₁.sound hsteps halive
    exact ⟨hlater.facade, tag, values, hlater.instance?,
      members_of_shows hf (hk₁.trans hsteps) hlater htraits⟩
  constructs k name v form x w hk hd hname hcount hin hrun := by
    obtain ⟨id, values, rfl, hshows⟩ := hk.sound.shows_of_construct hd hname hcount hin hrun
    exact ⟨⟨f, id⟩, values, .construct hname hin hrun rfl, rfl, hshows.instance?⟩

/-- **Members never shadow each other.** A facade is composed of traits that are apart and of
no others, and a composition that fails does so for the first trait with the name of one
before it or of a field. Whatever a program does before and after, and in whatever way a
facade gives it a view, of an inherited variant or of the facade's own: each name is a field
of the view's variant, and then no trait; or else a trait that has a case for the variant, and
calls of it run that case; or else it is refused as a trait without a case or as unknown. What
a construction gives is not looked at, so for this there must be ids of tags to spare when it
is made. -/
theorem members_apart (d : Data) (traits : List Trait) :
    (∀ f, compose d traits = .ok f ↔ f = ⟨d, bindings traits⟩ ∧ Apart d traits) ∧
      (∀ fault, compose d traits = .error fault ↔
        ∃ before t after, traits = before ++ t :: after ∧ Apart d before ∧ Clash d before t fault) ∧
      ∀ f, compose d traits = .ok f → f.Exposes traits :=
  ⟨fun _ => compose_eq_ok, fun _ => compose_eq_error, fun _ hf => exposes_of_compose hf⟩

end Exposing

end Facade

/-! ### The number after zero -/

namespace Client

/-- A trait for zero alone. -/
def starting : Trait :=
  ⟨⟨1, "start", none, [("Zero", .handler fun _ => pure (.int 0))], none, 512⟩, []⟩

/-- A trait with the name of a field. -/
def ofTrait : Trait := ⟨⟨2, "of", none, [(wildcard, .handler fun _ => pure .null)], none, 512⟩, []⟩

/-- The facade of numbers with the trait for all of them and the trait for zero. -/
def counting : Facade := ⟨number, [("tally", 0), ("start", 1)]⟩

/-- The program after it declared numbers and defined the traits. -/
def counted : Holder := ⟨{numbers with world := {numbers.world with traits := #[tally, starting]}}, []⟩

/-- The world after the program constructed the number after zero. -/
def countedOne : World := ((Form.positional [.inst 0]).run next counted.world).2

/-- The view of the number after zero has the field, and the trait for all numbers as a method.
The trait for zero has no case for it, and there is no more. A trait with the name of the
field is refused. -/
theorem next_members :
    Facade.compose number [tally, starting] = .ok counting ∧
      counted.Views counting (.construct "Next" (.positional [.inst 0])) ⟨counting, 1⟩
        (counted.withWorld countedOne) ∧
      (View.mk counting 1).GivesField "of" countedOne next.tag 0 (.inst 0) ∧
      (View.mk counting 1).member performAll "tally" countedOne =
        (.ok (.method ⟨0, "tally", .inst 1⟩), countedOne) ∧
      (View.mk counting 1).Fails "start" countedOne (.composition (.missingCase "start" "Next")) ∧
      (View.mk counting 1).Fails "twice" countedOne
        (.composition (.unknownMember "Next" "twice")) ∧
      Facade.compose number [tally, ofTrait] = .error (.composition (.nameClash "of" "Next")) := by
  obtain ⟨-, -, hexposes⟩ := Facade.members_apart number [tally, starting]
  obtain ⟨-, herror, -⟩ := Facade.members_apart number [tally, ofTrait]
  have hcompose : Facade.compose number [tally, starting] = .ok counting := rfl
  have hreachable : counted.Reachable :=
    Holder.Steps.of_client (numbers_reachable.tail (.other _ _ rfl rfl rfl))
  have hname : counting.data.variant "Next" = .ok next := rfl
  have hin : ∀ a ∈ (Form.positional [.inst 0]).values, counted.world.heap.Proper a := zero_proper
  have hrun : (Form.positional [.inst 0]).run next counted.world = (.ok (.inst 1), countedOne) := rfl
  have hviews : counted.Views counting (.construct "Next" (.positional [.inst 0])) ⟨counting, 1⟩
      (counted.withWorld countedOne) := .construct hname hin hrun rfl
  have hspare : counted.Spares counting (.construct "Next" (.positional [.inst 0])) := by
    intro v hv
    cases hv
    decide
  have htraits : ∀ t ∈ [tally, starting], countedOne.traits[t.layer.id]? = some t := by
    intro t ht
    rcases List.mem_pair.mp ht with rfl | rfl <;> rfl
  obtain ⟨-, tag, values, hinst, hfield, hbound, hmissing, hunknown⟩ :=
    (hexposes _ hcompose).views counted _ _ _ _ hreachable List.mem_cons_self hviews hspare .refl rfl
      htraits
  have hnext : countedOne.heap.instance? (.inst 1) = some (next.tag, [.inst 0]) := rfl
  cases hinst.symm.trans hnext
  have hclash : Facade.Clash number [tally] ofTrait (.composition (.nameClash "of" "Next")) :=
    @Facade.Clash.field number [tally] ofTrait [zero] [] next (by decide) rfl (by decide) (by decide)
  have htally : Facade.Apart number [tally] := ⟨by decide, by decide⟩
  refine ⟨hcompose, hviews, ?_, ?_, hmissing starting (by simp) rfl,
    hunknown "twice" (by decide) (by decide),
    (herror _).mpr ⟨[tally], ofTrait, [], rfl, htally, hclash⟩⟩
  · obtain ⟨-, index, stored, hindex, hstored, hgives⟩ := hfield "of" (by decide)
    cases index with
    | zero =>
      cases hstored
      exact hgives
    | succ index => cases hindex
  · obtain ⟨found, -, hmethod⟩ := hbound tally (by simp) rfl
    exact hmethod.member performAll

end Client

end OpenVariants

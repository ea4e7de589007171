import OpenVariants.Proofs.Definable
import OpenVariants.Scenario

/-! Lists of integers as data.

A list is the instance of the empty variant, or an instance with an integer and a list
(`Heap.IsListOf`). As instances are canonical, a living list of some integers is the only
one, and building it again gives it (`World.Canonical.listOf_living`); as an instance owns
its fields, it is a list as long as its first part lives, whatever else is swept
(`Heap.IsListOf.later`). -/
namespace OpenVariants

/-! ### Limits of a registry -/

namespace World

theorem registryConfig_updateRegistry (w : World) (i r : RegistryId) {change : Registry → Registry}
    (hchange : ∀ reg, (change reg).config = reg.config) :
    registryConfig i (w.updateRegistry r change) = registryConfig i w := by
  unfold registryConfig
  rw [registries_updateRegistry]
  split
  · cases w.registries[i]? with
    | none => rfl
    | some reg => exact hchange reg
  · rfl

theorem registryConfig_sweep (w : World) (i r : RegistryId) :
    registryConfig i (w.sweep r) = registryConfig i w :=
  w.registryConfig_updateRegistry i r fun _ => rfl

theorem registryConfig_countFresh (w : World) (i r : RegistryId) :
    registryConfig i (w.countFresh r) = registryConfig i w := by
  have hcounted (count : UInt64) :
      registryConfig i (w.updateRegistry r fun reg => {reg with fresh := count}) =
        registryConfig i w := w.registryConfig_updateRegistry i r fun _ => rfl
  unfold countFresh
  split
  · rfl
  · dsimp only
    split
    · rfl
    · split
      · rw [registryConfig_sweep, hcounted]
      · exact hcounted _

theorem registryConfig_canonicalize (w : World) (i r : RegistryId) (tag : Tag) (fields : List Value) :
    registryConfig i (w.canonicalize r tag fields).2 = registryConfig i w := by
  unfold canonicalize
  dsimp only
  split
  · rfl
  · split
    · rfl
    · rw [registryConfig_countFresh]
      exact (w.push _).registryConfig_updateRegistry i r fun _ => rfl

theorem registryConfig_addVariant (w : World) (i r : RegistryId) (owner : UInt32)
    (spec : VariantSpec) : registryConfig i (w.addVariant r owner spec).2 = registryConfig i w := by
  have htag : registryConfig i (w.withTag r) = registryConfig i w :=
    World.registryConfig_updateRegistry _ i r fun _ => rfl
  unfold addVariant
  dsimp only
  split
  · exact (registryConfig_canonicalize _ i r _ _).trans htag
  · exact htag

theorem registryConfig_addVariants (w : World) (i r : RegistryId) (owner : UInt32)
    (specs : List VariantSpec) :
    registryConfig i (w.addVariants r owner specs).2 = registryConfig i w := by
  induction specs generalizing w with
  | nil => rfl
  | cons spec rest ih => exact (ih _).trans (w.registryConfig_addVariant i r owner spec)

/-- A declaration leaves the limits of every registry as they are. -/
theorem registryConfig_declare {w w' : World} {r : RegistryId} {name : String} {base? : Option Data}
    {specs : List VariantSpec} {d : Data} (i : RegistryId)
    (hrun : OpenVariants.declare r name base? specs w = (.ok d, w')) :
    registryConfig i w' = registryConfig i w := by
  obtain ⟨-, owner, -, -, rfl⟩ := declare_ok hrun
  exact (registryConfig_addVariants _ i r owner specs).trans
    (World.registryConfig_updateRegistry _ i r fun _ => rfl)

theorem nesting_canonicalize (w : World) (r : RegistryId) (tag : Tag) (fields : List Value) :
    (w.canonicalize r tag fields).2.nesting = w.nesting := by
  obtain ⟨registries, h | h⟩ := canonicalize_frame w r tag fields
  · rw [h]
  · rw [h]
    rfl

theorem nesting_addVariant (w : World) (r : RegistryId) (owner : UInt32) (spec : VariantSpec) :
    (w.addVariant r owner spec).2.nesting = w.nesting := by
  unfold addVariant
  dsimp only
  split
  · exact nesting_canonicalize _ _ _ _
  · rfl

theorem nesting_addVariants (w : World) (r : RegistryId) (owner : UInt32) (specs : List VariantSpec) :
    (w.addVariants r owner specs).2.nesting = w.nesting := by
  induction specs generalizing w with
  | nil => rfl
  | cons spec rest ih => exact (ih _).trans (w.nesting_addVariant r owner spec)

theorem nesting_declare {w w' : World} {r : RegistryId} {name : String} {base? : Option Data}
    {specs : List VariantSpec} {d : Data}
    (hrun : OpenVariants.declare r name base? specs w = (.ok d, w')) : w'.nesting = w.nesting := by
  obtain ⟨-, owner, -, -, rfl⟩ := declare_ok hrun
  exact nesting_addVariants _ r owner specs

theorem registry_addVariant (w : World) (r : RegistryId) (owner : UInt32) (spec : VariantSpec) :
    (w.addVariant r owner spec).1.registry = r := by
  unfold addVariant
  dsimp only
  split <;> rfl

theorem registry_addVariants (w : World) (r : RegistryId) (owner : UInt32) (specs : List VariantSpec) :
    ∀ v ∈ (w.addVariants r owner specs).1, v.registry = r := by
  induction specs generalizing w with
  | nil => intro v hv; cases hv
  | cons spec rest ih =>
    intro v hv
    rcases List.mem_cons.mp hv with rfl | hv
    · exact w.registry_addVariant r owner spec
    · exact ih _ v hv

end World

/-! ### The declaration -/

/-- Data for lists: a variant without fields and its instance, and one with a head and a tail. -/
structure Data.OfLists (d : Data) (r : RegistryId) (nil cons : Variant) (empty : ObjectId) : Prop where
  variants : d.variants = [nil, cons]
  registry : nil.registry = r ∧ cons.registry = r
  names : nil.tag.name = "Nil" ∧ cons.tag.name = "Cons"
  fields : nil.tag.fields = [] ∧ cons.tag.fields = ["head", "tail"]
  singleton : nil.singleton? = some empty

namespace Data.OfLists
variable {d : Data} {r : RegistryId} {nil cons : Variant} {empty : ObjectId}

theorem cons_mem (h : d.OfLists r nil cons empty) : cons ∈ d.variants := by
  rw [h.variants]
  exact List.mem_cons_of_mem _ (List.mem_singleton_self cons)

theorem nil_mem (h : d.OfLists r nil cons empty) : nil ∈ d.variants := by
  rw [h.variants]
  exact List.mem_cons_self

theorem variant_cons (h : d.OfLists r nil cons empty) : d.variant "Cons" = .ok cons := by
  have hfind : d.variant? "Cons" = some cons := by
    rw [Data.variant?, h.variants, List.find?_cons_of_neg, List.find?_cons_of_pos]
    · rw [Variant.name, h.names.2]
      rfl
    · rw [Variant.name, h.names.1]
      decide
  rw [Data.variant, hfind]

theorem unit_nil (h : d.OfLists r nil cons empty) : d.unit "Nil" = .ok (.inst empty) := by
  have hfind : d.variant? "Nil" = some nil := by
    rw [Data.variant?, h.variants, List.find?_cons_of_pos]
    rw [Variant.name, h.names.1]
    rfl
  simp only [Data.unit, Data.variant, hfind, bind, Except.bind, Variant.singleton, h.singleton]

theorem variantNames_eq (h : d.OfLists r nil cons empty) : d.variantNames = ["Nil", "Cons"] := by
  rw [Data.variantNames, h.variants, List.map_cons, List.map_singleton, Variant.name, Variant.name,
    h.names.1, h.names.2]

end Data.OfLists

/-- Lists can be declared in any registry. -/
theorem Holder.Reachable.declareList {k : Holder} (hk : k.Reachable) {r : RegistryId}
    (hr : r < k.world.registries.size) :
    ∃ d w nil cons empty, Scenario.declareList r k.world = (.ok d, w) ∧
      d.OfLists r nil cons empty ∧ Holder.Step k (k.withData r none d w) := by
  obtain ⟨d, w, hrun⟩ : ∃ d w, Scenario.declareList r k.world = (.ok d, w) :=
    ⟨_, _, declare_of_ok k.world rfl⟩
  have hs := hk.sound
  have hstep : Holder.Step k (k.withData r none d w) := hs.declare hr (by simp) hrun
  have hdeclared := hs.declared (Array.getElem?_eq_getElem hr) (by simp) hrun
  obtain ⟨-, owner, hown, hvariants, -⟩ := World.declare_ok hrun
  have hregistry := World.registry_addVariants (k.world.withData r) r owner
    [⟨"Nil", []⟩, ⟨"Cons", ["head", "tail"]⟩]
  rw [← hown] at hregistry
  have hnames := hdeclared.names
  have hfields := hdeclared.fields
  obtain ⟨nil, cons, hpair⟩ : ∃ nil cons, d.own none = [nil, cons] :=
    List.length_eq_two.mp (by simpa using congrArg List.length hnames)
  rw [hpair] at hvariants hregistry hnames hfields
  simp only [List.map_cons, List.map_nil, List.cons.injEq, and_true] at hnames hfields
  have hvariants : d.variants = [nil, cons] := hvariants
  have hgood := (hs.step hstep).has (.inr ⟨d, List.mem_cons_self, hvariants ▸ List.mem_cons_self⟩)
  obtain ⟨empty, hempty⟩ : ∃ empty, nil.singleton? = some empty := by
    rw [← Option.isSome_iff_exists, hgood.singleton, Tag.isSingleton, hfields.1]
    rfl
  exact ⟨d, w, nil, cons, empty, hrun,
    ⟨hvariants, ⟨hregistry nil (by simp), hregistry cons (by simp)⟩, hnames, hfields, hempty⟩, hstep⟩

/-! ### Lists -/

/-- The list of some integers, with an instance that stands for no integers. -/
def Heap.IsListOf (h : Heap) (empty : ObjectId) (cons : Tag) : List Int64 → Value → Prop
  | [], v => v = .inst empty
  | x :: xs, v =>
    ∃ tail, h.instance? v = some (cons, [.int x, tail]) ∧ h.IsListOf empty cons xs tail

section IsListOf
variable {h h' : Heap} {empty : ObjectId} {cons : Tag} {xs : List Int64} {v v' : Value}

/-- Every list is an instance. -/
theorem Heap.IsListOf.exists_inst (hv : h.IsListOf empty cons xs v) : ∃ id, v = .inst id := by
  cases xs with
  | nil => exact ⟨empty, hv⟩
  | cons x xs =>
    obtain ⟨tail, hinst, -⟩ := hv
    obtain ⟨id, rfl, -⟩ := Heap.instance?_eq_some.mp hinst
    exact ⟨id, rfl⟩

theorem Heap.IsListOf.proper (hempty : h.Proper (.inst empty)) (hv : h.IsListOf empty cons xs v) :
    h.Proper v := by
  cases xs with
  | nil => exact hv ▸ hempty
  | cons x xs =>
    obtain ⟨tail, hinst, -⟩ := hv
    obtain ⟨id, rfl, ho⟩ := Heap.instance?_eq_some.mp hinst
    exact Heap.proper_inst ho

/-- A list is one as long as its first part lives: an instance owns its fields. -/
theorem Heap.IsListOf.later (hs : h'.Sound) (hb : h.Before h') (hv : h.IsListOf empty cons xs v)
    (hlives : h'.holds v = true) : h'.IsListOf empty cons xs v := by
  induction xs generalizing v with
  | nil => exact hv
  | cons x xs ih =>
    obtain ⟨tail, hinst, htail⟩ := hv
    obtain ⟨id, rfl, ho⟩ := Heap.instance?_eq_some.mp hinst
    have ho' := hb.object?_of_alive ho (Heap.holds_iff.mp hlives id rfl)
    refine ⟨tail, Heap.instance?_inst.mpr ho', ih htail ?_⟩
    exact ((hs id _ ho' tail (by simp [Object.children, Content.children])).1).holds

theorem Heap.IsListOf.extends (he : h.Extends h') (hv : h.IsListOf empty cons xs v) :
    h'.IsListOf empty cons xs v := by
  induction xs generalizing v with
  | nil => exact hv
  | cons x xs ih =>
    obtain ⟨tail, hinst, htail⟩ := hv
    obtain ⟨id, rfl, ho⟩ := Heap.instance?_eq_some.mp hinst
    exact ⟨tail, Heap.instance?_inst.mpr (he id _ ho), ih htail⟩

/-- There is one living list of some integers. -/
theorem Heap.IsListOf.unique {declared : List (RegistryId × Tag)} {w : World}
    (hc : w.Canonical declared) (hv : w.heap.IsListOf empty cons xs v)
    (hv' : w.heap.IsListOf empty cons xs v') : v = v' := by
  induction xs generalizing v v' with
  | nil => exact hv.trans hv'.symm
  | cons x xs ih =>
    obtain ⟨tail, hinst, htail⟩ := hv
    obtain ⟨tail', hinst', htail'⟩ := hv'
    obtain ⟨id, rfl, ho⟩ := Heap.instance?_eq_some.mp hinst
    obtain ⟨id', rfl, ho'⟩ := Heap.instance?_eq_some.mp hinst'
    cases ih htail htail'
    have hsame : Value.AllSame [.int x, tail] [.int x, tail] :=
      .cons (Value.same_refl _) (.cons (Value.same_refl _) .nil)
    rw [hc.eq_of_same ho ho' rfl hsame]

end IsListOf

theorem Value.eq_int_of_same {v : Value} {x : Int64} (h : v.same (.int x) = true) : v = .int x := by
  cases v with
  | int y => exact congrArg Value.int (beq_iff_eq.mp h)
  | function id label => cases label <;> exact absurd h Bool.false_ne_true
  | _ => exact absurd h Bool.false_ne_true

theorem Value.eq_inst_of_same {v : Value} {id : ObjectId} (h : v.same (.inst id) = true) :
    v = .inst id := by
  cases v with
  | inst i => exact congrArg Value.inst (beq_iff_eq.mp h)
  | function i label => cases label <;> exact absurd h Bool.false_ne_true
  | _ => exact absurd h Bool.false_ne_true

/-- An integer and an instance are the same as no others. -/
theorem Value.eq_pair_of_same {values : List Value} {x : Int64} {id : ObjectId}
    (h : AllSame values [.int x, .inst id]) : values = [.int x, .inst id] := by
  obtain ⟨head, rest, hhead, hrest, rfl⟩ := List.forall₂_cons_right_iff.mp h
  obtain ⟨tail, rest, htail, hnil, rfl⟩ := List.forall₂_cons_right_iff.mp hrest
  rw [eq_int_of_same hhead, eq_inst_of_same htail, List.forall₂_nil_right_iff.mp hnil]

/-! ### Programs that hold lists -/

namespace Holder

/-- After a call: what lives lives on, and what is held, definitions, names and the nesting of
calls are as before. -/
structure Later (k k' : Holder) : Prop where
  steps : Steps k k'
  extends_ : k.world.heap.Extends k'.world.heap
  held : k' = k.withWorld k'.world
  nesting : k'.world.nesting = k.world.nesting
  fixed : k'.world.fixed = k.world.fixed

theorem Later.refl (k : Holder) : k.Later k := ⟨.refl, Heap.Extends.refl _, rfl, rfl, rfl⟩

theorem Later.trans {a b k : Holder} (hab : a.Later b) (hbk : b.Later k) : a.Later k where
  steps := hab.steps.trans hbk.steps
  extends_ := hab.extends_.trans hbk.extends_
  held := by
    have hheld := hbk.held
    rwa [hab.held] at hheld
  nesting := hbk.nesting.trans hab.nesting
  fixed := hbk.fixed.trans hab.fixed

/-- A program that holds the variants of lists, with ids of tags to spare. -/
structure HasLists (k : Holder) (d : Data) (nil cons : Variant) (empty : ObjectId) : Prop where
  reachable : k.Reachable
  held : ∀ v ∈ d.variants, k.Has v
  data : d.OfLists cons.registry nil cons empty
  spare : k.client.variantCount cons.registry < UInt32.size

section HasLists
variable {k k' : Holder} {d : Data} {nil cons : Variant} {empty : ObjectId} {xs : List Int64}
  {v : Value}

theorem HasLists.later (h : k.HasLists d nil cons empty) (hl : k.Later k') :
    k'.HasLists d nil cons empty where
  reachable := h.reachable.trans hl.steps
  held := hl.held ▸ h.held
  data := h.data
  spare := hl.held ▸ h.spare

theorem HasLists.cons_known (h : k.HasLists d nil cons empty) :
    (cons.registry, cons.tag) ∈ k.client.declared :=
  (h.reachable.sound.has (h.held cons h.data.cons_mem)).known

theorem HasLists.empty_inst (h : k.HasLists d nil cons empty) :
    k.world.heap.instance? (.inst empty) = some (nil.tag, []) := by
  have hgood := h.reachable.sound.has (h.held nil h.data.nil_mem)
  refine (hgood.inst empty h.data.singleton).2 ?_
  rw [Client.tagsOf_length, h.data.registry.1]
  exact h.spare

theorem HasLists.empty_proper (h : k.HasLists d nil cons empty) :
    k.world.heap.Proper (.inst empty) := by
  obtain ⟨id, hid, ho⟩ := Heap.instance?_eq_some.mp h.empty_inst
  exact hid ▸ Heap.proper_inst ho

/-- What lives when an instance is constructed lives on, and nothing else changes but
registries. -/
theorem Reachable.later_construct (hk : k.Reachable) (hv : k.Has cons) {args : List Value}
    (hlength : args.length = cons.tag.arity) (hin : ∀ a ∈ args, k.world.heap.Proper a) :
    k.Later (k.withWorld (k.world.canonicalize cons.registry cons.tag args).2) := by
  have hs := hk.sound
  have hrun := construct_ok hlength k.world
  have hfixed : (k.world.canonicalize cons.registry cons.tag args).2.fixed = k.world.fixed := by
    obtain ⟨registries, h | h⟩ := k.world.canonicalize_frame cons.registry cons.tag args
    · rw [h]
      rfl
    · rw [h]
      rfl
  have hstep := @Sound.construct k hs cons (.positional args) _ _ hv hin hrun
  exact ⟨.single hstep, @Sound.construct_extends k hs cons (.positional args) _ _ hv hin hrun, rfl,
    World.nesting_canonicalize _ _ _ _, hfixed⟩

/-- An integer before a list makes a list. -/
theorem HasLists.construct (h : k.HasLists d nil cons empty) (x : Int64)
    (hv : k.world.heap.IsListOf empty cons.tag xs v) :
    ∃ z k', cons.construct [.int x, v] k.world = (.ok z, k'.world) ∧ k.Later k' ∧
      k'.world.heap.IsListOf empty cons.tag (x :: xs) z := by
  have hlength : [Value.int x, v].length = cons.tag.arity := by
    rw [Tag.arity, h.data.fields.2]
    rfl
  have hin : ∀ a ∈ [Value.int x, v], k.world.heap.Proper a := by
    intro a ha
    rcases List.mem_pair.mp ha with rfl | rfl
    · exact Heap.proper_of_plain rfl
    · exact hv.proper h.empty_proper
  have hcons := h.held cons h.data.cons_mem
  have hl := h.reachable.later_construct hcons hlength hin
  have hrun := construct_ok hlength k.world
  obtain ⟨args, values, hargs, hinst, hsame⟩ := @Sound.construct_inst k h.reachable.sound cons
    (.positional [.int x, v]) _ _ hcons h.spare hin hrun
  obtain ⟨rfl, -⟩ := positional_ok hargs
  obtain ⟨id, rfl⟩ := hv.exists_inst
  rw [Value.eq_pair_of_same hsame] at hinst
  exact ⟨_, k.withWorld _, hrun, hl, _, hinst, hv.extends hl.extends_⟩

/-- A list can be built of any integers. -/
theorem HasLists.listOf_builds (h : k.HasLists d nil cons empty) (xs : List Int64) :
    ∃ v k', Scenario.listOf (.inst empty) cons xs k.world = (.ok v, k'.world) ∧ k.Later k' ∧
      k'.world.heap.IsListOf empty cons.tag xs v := by
  induction xs with
  | nil => exact ⟨.inst empty, k, rfl, .refl k, rfl⟩
  | cons x xs ih =>
    obtain ⟨tail, k₁, hrun, hl, htail⟩ := ih
    obtain ⟨z, k₂, hconstruct, hl₂, hz⟩ := (h.later hl).construct x htail
    refine ⟨z, k₂, ?_, hl.trans hl₂, hz⟩
    rw [Scenario.listOf, Run.bind_apply, hrun]
    exact hconstruct

end HasLists

end Holder

/-- Building a living list again gives it, and changes nothing. -/
theorem World.Canonical.listOf_living {declared : List (RegistryId × Tag)} {w : World}
    (hc : w.Canonical declared) {cons : Variant} (hcons : (cons.registry, cons.tag) ∈ declared)
    (harity : cons.tag.arity = 2) {empty : ObjectId} {xs : List Int64} {v : Value}
    (hv : w.heap.IsListOf empty cons.tag xs v) :
    Scenario.listOf (.inst empty) cons xs w = (.ok v, w) := by
  induction xs generalizing v with
  | nil => rw [Scenario.listOf, Run.pure_apply, hv]
  | cons x xs ih =>
    obtain ⟨tail, hinst, htail⟩ := hv
    rw [Scenario.listOf, Run.bind_apply, ih htail]
    have hlength : [Value.int x, tail].length = cons.tag.arity := harity.symm
    show cons.construct [.int x, tail] w = (.ok v, w)
    rw [construct_ok hlength, hc.canonicalize_eq_of_living hinst hcons rfl]

end OpenVariants

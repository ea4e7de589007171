import OpenVariants.Proofs.Construction
import OpenVariants.Proofs.Matching

/-! The forms of construction agree.

A record constructs what its values do in the order of the fields, provided that its keys
are the names of the fields (`Variant.ReadsByName`). Arguments of either form are read as
such a record or as they stand, and the number of fields and the keys decide which
(`Variant.ReadsEither`). Since construction is canonical, a living instance is what its own
values construct, by place and by name. -/
namespace OpenVariants

/-! ### A record in the order of the fields -/

/-- The keys of the entries of a record. -/
abbrev keysOf (entries : List (String × Value)) : List String := entries.map (·.1)

theorem lookup_eq_none {entries : List (String × Value)} {key : String} :
    entries.lookup key = none ↔ key ∉ keysOf entries := by
  rw [List.lookup_eq_none_iff, List.mem_map]
  simp only [bne_iff_ne, not_exists, not_and]
  exact forall₂_congr fun entry _ => ne_comm

theorem lookup_cons_ite {entries : List (String × Value)} {entry : String × Value} {key : String} :
    List.lookup key (entry :: entries) =
      if key = entry.1 then some entry.2 else entries.lookup key := by
  rw [List.lookup_cons]
  by_cases h : key = entry.1
  · simp [h]
  · rw [if_neg h, beq_eq_false_iff_ne.mpr h]

/-- Among keys that differ the order does not matter. -/
theorem lookup_perm {entries entries' : List (String × Value)} (h : entries'.Perm entries)
    (hkeys : (keysOf entries').Nodup) (key : String) : entries'.lookup key = entries.lookup key := by
  induction h with
  | nil => rfl
  | cons entry _ ih => rw [lookup_cons_ite, lookup_cons_ite, ih (List.nodup_cons.mp hkeys).2]
  | swap x y rest =>
    have hxy : y.1 ≠ x.1 := fun h => (List.nodup_cons.mp hkeys).1 (by simp [h])
    simp only [lookup_cons_ite]
    split_ifs with hy hx
    · exact absurd (hy.symm.trans hx) hxy
    all_goals rfl
  | trans h₁ _ ih₁ ih₂ => exact (ih₁ hkeys).trans (ih₂ ((h₁.map _).nodup_iff.mp hkeys))

/-- Names that differ find the values that they are paired with. -/
theorem map_lookup_zip {names : List String} {values : List Value} (hnames : names.Nodup)
    (hlength : values.length = names.length) :
    names.map (fun name => (names.zip values).lookup name) = values.map some := by
  induction names generalizing values with
  | nil => rw [List.eq_nil_of_length_eq_zero hlength, List.map_nil, List.map_nil]
  | cons name rest ih =>
    obtain ⟨v, values, rfl⟩ := List.exists_cons_of_length_eq_add_one hlength
    obtain ⟨hname, hrest⟩ := List.nodup_cons.mp hnames
    rw [List.map_cons, List.map_cons, ← ih hrest (Nat.succ.inj hlength), List.zip_cons_cons,
      lookup_cons_ite, if_pos rfl]
    refine congrArg _ (List.map_congr_left fun other hother => ?_)
    have hne : other ≠ name := fun h => hname (h ▸ hother)
    exact lookup_cons_ite.trans (if_neg hne)

theorem Tag.fieldIndex?_isNone {tag : Tag} {name : String} :
    (tag.fieldIndex? name).isNone = decide (name ∉ tag.fields) := by
  rw [Bool.eq_iff_iff, fieldIndex?, Option.isNone_iff_eq_none, List.findIdx?_eq_none_iff,
    decide_eq_true_iff]
  simp only [beq_eq_false_iff_ne]
  exact ⟨fun h hmem => h name hmem rfl, fun h x hx heq => h (heq ▸ hx)⟩

namespace Variant
variable {V : Variant} {entries : List (String × Value)} {names : List String}

theorem gather_ok_iff {values : List Value} :
    V.gather entries names = .ok values ↔
      names.map (fun name => entries.lookup name) = values.map some := by
  induction names generalizing values with
  | nil => cases values <;> simp [gather]
  | cons name rest ih =>
    rw [gather, List.map_cons]
    cases hname : entries.lookup name with
    | none => cases values <;> simp
    | some v =>
      cases hrest : V.gather entries rest with
      | error f => cases values <;> simp [← ih, hrest]
      | ok values' => cases values <;> simp [← ih, hrest]

/-- The first name that is not there is a fault, and if all are there is none. -/
theorem gather_error_iff {f : Fault} :
    V.gather entries names = .error f ↔
      ∃ name, names.find? (fun name => name ∉ keysOf entries) = some name ∧
        f = .construction (.missingField V.name name) := by
  induction names with
  | nil => simp [gather]
  | cons name rest ih =>
    rw [gather]
    cases hname : entries.lookup name with
    | none =>
      have habsent : name ∉ keysOf entries := lookup_eq_none.mp hname
      rw [List.find?_cons_of_pos (by simpa using habsent)]
      simp [eq_comm]
    | some v =>
      have hthere : name ∈ keysOf entries := by
        rw [← not_not (a := name ∈ keysOf entries), ← lookup_eq_none, hname]
        simp
      rw [List.find?_cons_of_neg (by simpa using hthere), ← ih]
      cases V.gather entries rest <;> simp

/-- A key that is no field is a fault, before any field that is missing. -/
theorem keyed_eq :
    V.keyed entries =
      (entries.find? fun entry => entry.1 ∉ V.tag.fields).elim (V.gather entries V.tag.fields)
        fun extra => .error (.construction (.unknownField V.name extra.1)) := by
  simp only [keyed, Tag.fieldIndex?_isNone]
  cases entries.find? fun entry => decide (entry.1 ∉ V.tag.fields) <;> rfl

theorem keyed_ok_iff {values : List Value} :
    V.keyed entries = .ok values ↔
      (∀ key ∈ keysOf entries, key ∈ V.tag.fields) ∧
        V.tag.fields.map (fun field => entries.lookup field) = values.map some := by
  rw [keyed_eq, ← gather_ok_iff]
  cases hextra : entries.find? fun entry => decide (entry.1 ∉ V.tag.fields) with
  | none =>
    have hknown : ∀ key ∈ keysOf entries, key ∈ V.tag.fields := by simpa using hextra
    exact (and_iff_right hknown).symm
  | some extra =>
    have hextra' : extra.1 ∉ V.tag.fields := by simpa using List.find?_some hextra
    refine iff_of_false (fun h => nomatch h) fun h => hextra' ?_
    exact h.1 extra.1 (List.mem_map_of_mem (List.mem_of_find?_eq_some hextra))

/-- A record is good exactly if its keys are the names of the fields. -/
theorem exists_keyed_ok_iff :
    (∃ values, V.keyed entries = .ok values) ↔ ∀ key, key ∈ keysOf entries ↔ key ∈ V.tag.fields := by
  constructor
  · rintro ⟨values, h⟩ key
    obtain ⟨hknown, hvalues⟩ := keyed_ok_iff.mp h
    refine ⟨hknown key, fun hfield => ?_⟩
    have hlookup : entries.lookup key ∈ values.map some :=
      hvalues ▸ List.mem_map_of_mem (f := fun field => entries.lookup field) hfield
    obtain ⟨v, -, hv⟩ := List.mem_map.mp hlookup
    by_contra habsent
    rw [lookup_eq_none.mpr habsent] at hv
    cases hv
  · intro h
    cases hgather : V.gather entries V.tag.fields with
    | error f =>
      obtain ⟨name, hname, -⟩ := gather_error_iff.mp hgather
      have habsent : name ∉ keysOf entries := by simpa using List.find?_some hname
      exact absurd ((h name).mpr (List.mem_of_find?_eq_some hname)) habsent
    | ok values =>
      exact ⟨values, keyed_ok_iff.mpr ⟨fun key hkey => (h key).mp hkey, gather_ok_iff.mp hgather⟩⟩

/-! ### What the forms have in common -/

/-- A record constructs exactly if its keys are the names of the fields, and then what the
values do in the order of the fields. -/
structure ReadsByName (V : Variant) (entries : List (String × Value)) (w : World) : Prop where
  accepted : (∃ x w', (Form.keyed entries).run V w = (.ok x, w')) ↔
    ∀ key, key ∈ keysOf entries ↔ key ∈ V.tag.fields
  /-- The values of the fields, in their order. -/
  inOrder : ∀ x w', (Form.keyed entries).run V w = (.ok x, w') →
    ∃ values, V.tag.fields.map (fun field => entries.lookup field) = values.map some ∧
      (Form.positional values).run V w = (.ok x, w')
  /-- The order of the entries does not matter. -/
  permuted : ∀ x w', (Form.keyed entries).run V w = (.ok x, w') → (keysOf entries).Nodup →
    ∀ entries', entries'.Perm entries → (Form.keyed entries').run V w = (.ok x, w')
  /-- The first key that is no field. -/
  unknown : ∀ entry, entries.find? (fun entry => entry.1 ∉ V.tag.fields) = some entry →
    (Form.keyed entries).run V w =
      (.error (.fault (.construction (.unknownField V.name entry.1))), w)
  /-- Or else the first field that is no key. -/
  missing : (∀ key ∈ keysOf entries, key ∈ V.tag.fields) →
    ∀ field, V.tag.fields.find? (fun field => field ∉ keysOf entries) = some field →
      (Form.keyed entries).run V w =
        (.error (.fault (.construction (.missingField V.name field))), w)

/-- A record as the only argument has the fields if there are several, or if the only one is
among its keys. -/
def IsRecordOfFields (V : Variant) (h : Heap) (args : List Value) : Prop :=
  ∃ id, args = [.record id] ∧ (2 ≤ V.tag.arity ∨
    ∃ field, V.tag.fields = [field] ∧ field ∈ keysOf (h.entries (.record id)))

/-- Arguments of either form construct what they do in one of them. -/
structure ReadsEither (V : Variant) (w : World) : Prop where
  keyed : ∀ id, V.IsRecordOfFields w.heap [.record id] →
    (Form.applied [.record id]).run V w = (Form.keyed (w.heap.entries (.record id))).run V w
  positional : ∀ args, ¬V.IsRecordOfFields w.heap args →
    (Form.applied args).run V w = (Form.positional args).run V w
  /-- With no field or several, what is good by place is good in either form. -/
  accepts : V.tag.arity ≠ 1 → ∀ args x w', (Form.positional args).run V w = (.ok x, w') →
    (Form.applied args).run V w = (.ok x, w')

theorem constructOn_ok_iff {fields : Except Fault (List Value)} {w w' : World} {x : Value} :
    V.constructOn fields w = (.ok x, w') ↔
      ∃ values, fields = .ok values ∧ w.canonicalize V.registry V.tag values = (x, w') := by
  cases fields with
  | error f => simp [constructOn]
  | ok values => simp [constructOn, Prod.ext_iff]

theorem positional_run {values : List Value} (hlength : values.length = V.tag.arity) (w : World) :
    (Form.positional values).run V w = V.constructOn (.ok values) w := by
  rw [Form.run_eq V _ w (by simp)]
  simp [Form.fields, positional, hlength]

theorem readsByName (V : Variant) (entries : List (String × Value)) (w : World) :
    V.ReadsByName entries w := by
  have hrun : ∀ entries, (Form.keyed entries).run V w = V.constructOn (V.keyed entries) w :=
    fun entries => Form.run_eq V _ w (by simp)
  refine ⟨?_, fun x w' h => ?_, fun x w' h hkeys entries' hperm => ?_, fun entry h => ?_,
    fun hknown field h => ?_⟩
  · rw [← exists_keyed_ok_iff, hrun]
    constructor
    · rintro ⟨x, w', h⟩
      obtain ⟨values, hvalues, -⟩ := constructOn_ok_iff.mp h
      exact ⟨values, hvalues⟩
    · rintro ⟨values, hvalues⟩
      exact ⟨_, _, constructOn_ok_iff.mpr ⟨values, hvalues, rfl⟩⟩
  · rw [hrun] at h
    obtain ⟨values, hvalues, -⟩ := constructOn_ok_iff.mp h
    obtain ⟨-, hlookup⟩ := keyed_ok_iff.mp hvalues
    have hlength : values.length = V.tag.arity := by
      simpa [Tag.arity] using (congrArg List.length hlookup).symm
    refine ⟨values, hlookup, ?_⟩
    rwa [positional_run hlength, ← hvalues]
  · rw [hrun] at h ⊢
    obtain ⟨values, hvalues, hcanonical⟩ := constructOn_ok_iff.mp h
    obtain ⟨hknown, hlookup⟩ := keyed_ok_iff.mp hvalues
    have hkeys' : (keysOf entries').Nodup := (hperm.map _).nodup_iff.mpr hkeys
    refine constructOn_ok_iff.mpr ⟨values, keyed_ok_iff.mpr ⟨fun key hkey => ?_, ?_⟩, hcanonical⟩
    · exact hknown key ((hperm.map _).mem_iff.mp hkey)
    · rw [← hlookup]
      exact List.map_congr_left fun field _ => lookup_perm hperm hkeys' field
  · rw [hrun, keyed_eq, h]
    rfl
  · have hnone : entries.find? (fun entry => entry.1 ∉ V.tag.fields) = none := by
      simpa using hknown
    rw [hrun, keyed_eq, hnone, Option.elim_none, gather_error_iff.mpr ⟨field, h, rfl⟩]
    rfl

theorem readsAsKeyed_iff :
    V.readsAsKeyed entries = true ↔
      2 ≤ V.tag.arity ∨ ∃ field, V.tag.fields = [field] ∧ field ∈ keysOf entries := by
  unfold readsAsKeyed Tag.arity
  split
  · next h => simp [h]
  · next only h =>
    rw [h, Option.isSome_iff_ne_none, ne_eq, lookup_eq_none, not_not]
    simp
  · next hnil hone =>
    rcases hfields : V.tag.fields with _ | ⟨first, _ | ⟨second, rest⟩⟩
    · exact absurd hfields hnil
    · exact absurd hfields (hone first)
    · simp

theorem readsEither (V : Variant) (w : World) : V.ReadsEither w := by
  have hrecord : ∀ id, (Form.applied [.record id]).run V w =
      V.constructOn (V.ofRecord [.record id] (w.heap.entries (.record id))) w :=
    fun id => Form.run_eq V _ w (by simp)
  have hpositional : ∀ args, ¬V.IsRecordOfFields w.heap args →
      (Form.applied args).run V w = (Form.positional args).run V w := by
    intro args hargs
    rw [Form.run_eq V (.positional args) w (by simp)]
    by_cases hone : ∃ id, args = [.record id]
    · obtain ⟨id, rfl⟩ := hone
      have hnot : ¬V.readsAsKeyed (w.heap.entries (.record id)) = true := fun h =>
        hargs ⟨id, rfl, readsAsKeyed_iff.mp h⟩
      rw [hrecord, ofRecord, if_neg hnot]
      rfl
    · have hfields : (Form.applied args).fields w.heap V = V.positional args := by
        rw [Form.fields]
        exact fun id h => hone ⟨id, h⟩
      rw [Form.run_eq V (.applied args) w (by simp), hfields]
      rfl
  refine ⟨fun id h => ?_, hpositional, fun hone args x w' h => ?_⟩
  · obtain ⟨id', hid, hread⟩ := h
    cases hid
    rw [hrecord, ofRecord, if_pos (readsAsKeyed_iff.mpr hread),
      Form.run_eq V (.keyed _) w (by simp)]
    rfl
  · have hcount : args.length = V.tag.arity := by
      rw [Form.run_eq V _ w (by simp)] at h
      obtain ⟨values, hvalues, -⟩ := constructOn_ok_iff.mp h
      exact (positional_ok hvalues).2
    rw [hpositional args ?_, h]
    -- A record alone is one argument, so there would be one field.
    rintro ⟨id, rfl, -⟩
    exact hone hcount.symm

end Variant

/-- A construction that fails changes nothing. -/
theorem Form.run_error {V : Variant} {form : Form} {w w' : World} {stop : Stop}
    (h : form.run V w = (.error stop, w')) : w' = w := by
  by_cases hunit : form = .unit
  · subst hunit
    rw [run, Run.lift_apply] at h
    cases hsingle : V.singleton with
    | ok x =>
      rw [hsingle] at h
      cases h
    | error f =>
      rw [hsingle] at h
      cases h
      rfl
  · rw [run_eq V form w hunit] at h
    cases hfields : form.fields w.heap V with
    | ok values =>
      rw [hfields] at h
      cases h
    | error f =>
      rw [hfields] at h
      cases h
      rfl

namespace Holder
variable {k : Holder}

/-- **The forms of construction agree.** Whatever a program has come to, through every
variant that was declared:

* A record constructs exactly if its keys are the names of the fields, in whatever order,
  and then what the values of the fields construct by place. Otherwise the first key that is
  no field is reported or, if all are, the first field that is missing.
* Arguments of either form construct what a record does if they are one record, and there
  are several fields or the only field is among its keys. Otherwise they construct what
  they do by place. So with no field or several they construct all that is good by place.
* A construction that fails, in any form, leaves the world as it was.
* A living instance is what its own values construct, by place or with the names of the
  fields, and again the world is as it was. -/
theorem Reachable.forms_agree (hk : k.Reachable) {V : Variant}
    (hV : (V.registry, V.tag) ∈ k.client.declared) :
    (∀ entries, V.ReadsByName entries k.world) ∧ V.ReadsEither k.world ∧
      (∀ form stop w, Form.run V form k.world = (.error stop, w) → w = k.world) ∧
      ∀ x values, k.world.heap.instance? x = some (V.tag, values) →
        (Form.positional values).run V k.world = (.ok x, k.world) ∧
          (Form.keyed (V.tag.fields.zip values)).run V k.world = (.ok x, k.world) := by
  refine ⟨fun entries => V.readsByName entries k.world, V.readsEither k.world,
    fun form stop w h => Form.run_error h, fun x values hx => ?_⟩
  obtain ⟨hfields, hlength⟩ := hk.fields_of_instance hx
  have hsame : k.world.canonicalize V.registry V.tag values = (x, k.world) :=
    hk.sound.client.world.canonicalize_eq_of_living hx hV rfl
  have hkeyed : V.keyed (V.tag.fields.zip values) = .ok values := by
    refine Variant.keyed_ok_iff.mpr ⟨fun key hkey => ?_, map_lookup_zip hfields hlength⟩
    obtain ⟨entry, hentry, rfl⟩ := List.mem_map.mp hkey
    exact (List.of_mem_zip hentry).1
  constructor
  · rw [Variant.positional_run hlength]
    exact Variant.constructOn_ok_iff.mpr ⟨values, rfl, hsame⟩
  · rw [Form.run_eq V _ k.world (by simp), Form.fields, hkeyed]
    exact Variant.constructOn_ok_iff.mpr ⟨values, rfl, hsame⟩

end Holder

/-! ### A triple -/

namespace Client

/-- The program with triples after it made one. -/
def oneTriple : Client :=
  {triples with world :=
    ((Form.positional [.int 1, .int 2, .int 3]).run triple triples.world).2}

theorem triples_oneTriple : Step triples oneTriple := by
  refine .construct triples _ triple (.positional [.int 1, .int 2, .int 3]) (.inst 0) _
    List.mem_cons_self List.mem_cons_self ?_ rfl
  intro a ha
  simp only [Form.values, List.mem_cons, List.not_mem_nil, or_false] at ha
  rcases ha with rfl | rfl | rfl <;> exact Heap.proper_of_plain rfl

/-- Its values give the triple again, with the last field named first. -/
theorem oneTriple_again :
    Holder.Reachable ⟨oneTriple, []⟩ ∧ (triple.registry, triple.tag) ∈ oneTriple.declared ∧
      (Form.keyed [("third", .int 3), ("first", .int 1), ("second", .int 2)]).run triple
        oneTriple.world = (.ok (.inst 0), oneTriple.world) := by
  have hreachable : Holder.Reachable ⟨oneTriple, []⟩ :=
    Holder.Steps.of_client (triples_reachable.tail triples_oneTriple)
  have hdeclared : (triple.registry, triple.tag) ∈ oneTriple.declared := List.mem_cons_self
  obtain ⟨hnames, -, -, hsame⟩ := hreachable.forms_agree hdeclared
  obtain ⟨-, hinOrder⟩ := hsame (.inst 0) [.int 1, .int 2, .int 3] rfl
  exact ⟨hreachable, hdeclared, (hnames _).permuted _ _ hinOrder (by decide) _
    (List.perm_append_singleton _ _).symm⟩

end Client

end OpenVariants

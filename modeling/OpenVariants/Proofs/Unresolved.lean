import OpenVariants.Proofs.Matching
import OpenVariants.Proofs.Members
import OpenVariants.Proofs.Reporting
import OpenVariants.Proofs.Validity

/-! Fields that cannot be resolved.

A knot that is not tied, or whose target was dropped, has nothing to give. The fault says so
without a site. On its way out it goes through what waits, innermost first: the first reading of
a field adds its own site, and all further ones and all calls pass it on as it is
(`Trail.leads`). So it names the innermost field whose lazy was being evaluated when the knot was
read, however deep fields, lazies and calls are nested there
(`Holder.Reachable.unresolved_named`). -/
namespace OpenVariants

theorem World.knotTarget_error {w : World} {id : KnotId} {f : Fault}
    (h : w.knotTarget id = .error f) :
    ∃ trouble, f = .unresolved none trouble := by
  unfold knotTarget at h
  split at h
  · cases h
    exact ⟨.untied, rfl⟩
  · split at h
    · cases h
    · cases h
      exact ⟨.dropped, rfl⟩

/-- A fault without a site gets one, and keeps it. -/
theorem Fault.located_unresolved (site : FieldSite) (site? : Option FieldSite)
    (trouble : KnotTrouble) :
    (Fault.unresolved site? trouble).located site = .unresolved (site?.or (some site)) trouble := by
  cases site? <;> rfl

/-! ### Fields that are being read -/

/-- The rest of the reading of a field whose lazy is being evaluated, and what comes after it. -/
def Pending.Reads (site : FieldSite) (p : Pending) : Prop :=
  ∃ n frame rest, p = .body n frame fun result => Program.afterForce site result >>= rest

namespace Pending
variable {insts : Tag → List Value → Prop} {p : Pending} {site site' : FieldSite}

/-- Which field it is shows in what it makes of a fault without a site. -/
theorem Reads.unique (h : p.Reads site) (h' : p.Reads site') : site = site' := by
  obtain ⟨n, frame, rest, rfl⟩ := h
  obtain ⟨n', frame', rest', heq⟩ := h'
  injection heq with _ _ hnext
  have hfault : (Program.done (.error (.unresolved (some site) .untied)) : Program Value) =
      .done (.error (.unresolved (some site') .untied)) :=
    congrFun hnext (.error (.unresolved none .untied))
  cases hfault
  rfl

theorem Reads.not_passes (h : p.Reads site) : ¬p.Passes (.unresolved none .untied) := by
  obtain ⟨n, frame, rest, rfl⟩ := h
  intro hpasses
  have hlocated : Program.Raises (.unresolved none .untied)
      (.done (.error (.unresolved (some site) .untied)) : Program Value) := hpasses
  cases hlocated

theorem Reports.passes_of_not_reads (h : p.Reports insts) (hno : ∀ site, ¬p.Reads site) {f : Fault}
    (hf : f.IsUnresolved) : p.Passes f := by
  cases h with
  | body _ _ hpasses => exact hpasses f hf
  | read => exact absurd ⟨_, _, _, rfl⟩ (hno _)
  | _ => trivial

theorem Reports.of_reads (h : p.Reports insts) (hreads : p.Reads site) : site.Of insts := by
  cases h with
  | body _ _ hpasses => exact absurd (hpasses _ ⟨none, .untied, rfl⟩) hreads.not_passes
  | read _ hsite => exact hreads.unique ⟨_, _, _, rfl⟩ ▸ hsite
  | call | bottom | case =>
    obtain ⟨_, _, _, heq⟩ := hreads
    cases heq

end Pending

/-- The sites of the fields that are being read by what waits, innermost first. -/
inductive Trail : List Pending → List FieldSite → Prop
  | nil : Trail [] []
  | read {p : Pending} {site : FieldSite} {stack : List Pending} {sites : List FieldSite}
    (hp : p.Reads site) (h : Trail stack sites) : Trail (p :: stack) (site :: sites)
  | other {p : Pending} {stack : List Pending} {sites : List FieldSite}
    (hp : ∀ site, ¬p.Reads site) (h : Trail stack sites) : Trail (p :: stack) sites

/-- Where all that waits reports there is a trail, and each site on it is one of the instances. -/
theorem exists_trail {insts : Tag → List Value → Prop} {stack : List Pending}
    (h : ∀ p ∈ stack, p.Reports insts) :
    ∃ sites, Trail stack sites ∧ ∀ site ∈ sites, site.Of insts := by
  induction stack with
  | nil => exact ⟨[], .nil, List.forall_mem_nil _⟩
  | cons p stack ih =>
    obtain ⟨hp, hrest⟩ := List.forall_mem_cons.mp h
    obtain ⟨sites, htrail, hsites⟩ := ih hrest
    by_cases hreads : ∃ site, p.Reads site
    · obtain ⟨site, hreads⟩ := hreads
      exact ⟨site :: sites, .read hreads htrail,
        List.forall_mem_cons.mpr ⟨hp.of_reads hreads, hsites⟩⟩
    · exact ⟨sites, .other (not_exists.mp hreads) htrail, hsites⟩

theorem Trail.split {inner outer : List Pending} {sites : List FieldSite}
    (h : Trail (inner ++ outer) sites) :
    ∃ first rest, sites = first ++ rest ∧ Trail inner first ∧ Trail outer rest := by
  induction inner generalizing sites with
  | nil => exact ⟨[], sites, rfl, .nil, h⟩
  | cons p inner ih =>
    cases h with
    | read hp h =>
      obtain ⟨first, rest, rfl, hinner, houter⟩ := ih h
      exact ⟨_ :: first, rest, rfl, .read hp hinner, houter⟩
    | other hp h =>
      obtain ⟨first, rest, rfl, hinner, houter⟩ := ih h
      exact ⟨first, rest, rfl, .other hp hinner, houter⟩

/-! ### The way out -/

/-- The answer that is a fault. -/
abbrev Control.failed (f : Fault) : Control := .answer (.error (.fault f))

namespace Moment
variable {f : Fault} {stack : List Pending}

theorem leads_of_raises {n : Nat} {frame : Option Frame} {p : Program Value} (h : p.Raises f)
    (stack : List Pending) (w : World) :
    ∃ w', Leads ⟨.run n frame p, stack, w⟩ ⟨.failed f, stack, w'⟩ := by
  induction h generalizing w with
  | fail => exact ⟨w, .of_next (.refl _)⟩
  | ask _ ih | make _ ih | makeFunction _ ih | makeLazy _ ih =>
    obtain ⟨w', hw'⟩ := ih _ _
    exact ⟨w', .of_next hw'⟩
  | log _ ih =>
    obtain ⟨w', hw'⟩ := ih _
    exact ⟨w', .of_next hw'⟩

/-- What waits and passes the fault on hands it to what waits behind it. -/
theorem leads_of_passes {p : Pending} (h : p.Passes f) (stack : List Pending) (w : World) :
    ∃ w', Leads ⟨.failed f, p :: stack, w⟩ ⟨.failed f, stack, w'⟩ := by
  cases p with
  | body n frame next =>
    obtain ⟨w', hw'⟩ := leads_of_raises h stack w
    exact ⟨w', .of_next hw'⟩
  | call | bottom | case => exact ⟨_, .of_next (.refl _)⟩

/-- The reading of a field hands on what it makes of the fault. -/
theorem leads_of_reads {p : Pending} {site : FieldSite} (h : p.Reads site) (f : Fault)
    (stack : List Pending) (w : World) :
    Leads ⟨.failed f, p :: stack, w⟩ ⟨.failed (f.located site), stack, w⟩ := by
  obtain ⟨n, frame, rest, rfl⟩ := h
  exact .of_next (.of_next (.refl _))

end Moment

/-- A fault without a site comes out of the fields that are being read with the innermost one. -/
theorem Trail.leads {insts : Tag → List Value → Prop} {inner outer : List Pending}
    {sites : List FieldSite} (h : Trail inner sites) (hreports : ∀ p ∈ inner, p.Reports insts)
    (site? : Option FieldSite) (trouble : KnotTrouble) (w : World) :
    ∃ w', Moment.Leads ⟨.failed (.unresolved site? trouble), inner ++ outer, w⟩
      ⟨.failed (.unresolved (site?.or sites.head?) trouble), outer, w'⟩ := by
  induction h generalizing site? w with
  | nil =>
    rw [List.head?_nil, Option.or_none]
    exact ⟨w, .refl _⟩
  | @read p site inner sites hp _ ih =>
    obtain ⟨w', hw'⟩ := ih (List.forall_mem_cons.mp hreports).2 (site?.or (some site)) w
    have hstep := Moment.leads_of_reads hp (.unresolved site? trouble) (inner ++ outer) w
    rw [Fault.located_unresolved] at hstep
    have hsite : (site?.or (some site)).or sites.head? = site?.or (some site) := by
      cases site? <;> rfl
    exact ⟨w', hsite ▸ hstep.trans hw'⟩
  | @other p inner sites hp _ ih =>
    obtain ⟨hfirst, hrest⟩ := List.forall_mem_cons.mp hreports
    have hpasses := hfirst.passes_of_not_reads hp ⟨site?, trouble, rfl⟩
    obtain ⟨w₁, hw₁⟩ := Moment.leads_of_passes hpasses (inner ++ outer) w
    obtain ⟨w', hw'⟩ := ih hrest site? w₁
    exact ⟨w', hw₁.trans hw'⟩

/-- From a moment on an unresolved field is on its way out: whatever waits gets it with the
innermost of the fields that are being read inside it, if there are any. -/
structure Moment.Unwinds (m : Moment) (trouble : KnotTrouble) (sites : List FieldSite) : Prop where
  trail : Trail m.stack sites
  reaches : ∀ inner outer, m.stack = inner ++ outer → ∃ first rest w, sites = first ++ rest ∧
    Trail inner first ∧ Trail outer rest ∧
      m.Leads ⟨.failed (.unresolved first.head? trouble), outer, w⟩

theorem Moment.Reports.unwinds {insts : Tag → List Value → Prop} {m : Moment} (hm : m.Reports insts)
    {n : Nat} {frame : Option Frame} {id : KnotId} {next : Except Fault Value → Program Value}
    {trouble : KnotTrouble} (hcontrol : m.control = .run n frame (.ask (.knot id) next))
    (hknot : m.world.knotTarget id = .error (.unresolved none trouble))
    (hraises : (next (.error (.unresolved none trouble))).Raises (.unresolved none trouble)) :
    ∃ sites, (∀ site ∈ sites, site.Of insts) ∧ m.Unwinds trouble sites := by
  obtain ⟨c, stack, w⟩ := m
  obtain ⟨sites, htrail, hsites⟩ := exists_trail hm.stack
  dsimp only at hcontrol hknot htrail
  subst hcontrol
  refine ⟨sites, hsites, htrail, fun inner outer hstack => ?_⟩
  have hstack' : stack = inner ++ outer := hstack
  subst hstack'
  obtain ⟨first, rest, rfl, hinner, houter⟩ := htrail.split
  obtain ⟨w₁, hw₁⟩ := leads_of_raises hraises (inner ++ outer) w
  obtain ⟨w', hw'⟩ := hinner.leads
    (fun p hp => hm.stack p (List.mem_append_left _ hp)) none trouble w₁
  refine ⟨first, rest, w', rfl, hinner, houter, .of_next ?_⟩
  have hasked : Moment.next ⟨.run n frame (.ask (.knot id) next), inner ++ outer, w⟩ =
      ⟨.run n frame (next (w.knotTarget id)), inner ++ outer, w⟩ := rfl
  rw [hasked, hknot]
  exact hw₁.trans hw'

/-! ### Declared names -/

theorem Text.IsIdentifier.ne_empty {first : Char → Bool} {name : String}
    (h : IsIdentifier first name) : name ≠ "" := by
  rintro rfl
  obtain ⟨c, rest, hname, -⟩ := h
  cases hname

/-- The names of a variant and of its fields are in order. -/
structure Tag.Named (tag : Tag) : Prop where
  variant : Text.IsIdentifier Char.isUpper tag.name
  fields : ∀ field ∈ tag.fields, Text.IsIdentifier Char.isLower field

namespace Holder

/-- What a declaration adds went through its check. -/
theorem Sound.declare_named {k : Holder} (hs : k.Sound) {r : RegistryId} {name : String}
    {base? : Option Data} {specs : List VariantSpec} {d : Data} {w : World}
    (hr : r < k.world.registries.size) (hb : ∀ b, base? = some b → b ∈ k.data)
    (hrun : OpenVariants.declare r name base? specs k.world = (.ok d, w)) :
    ∀ v ∈ d.own base?, v.tag.Named := by
  have hdeclared := hs.declared (Array.getElem?_eq_getElem hr) hb hrun
  have hgood : Acceptable ((base?.map Data.variantNames).getD []) specs := by
    have hfirst := checkVariants_first ((base?.map Data.variantNames).getD []) specs
    rw [(World.declare_ok hrun).1] at hfirst
    exact acceptable_iff.mpr hfirst
  intro v hv
  have hname : v.tag.name ∈ specs.map (·.name) := hdeclared.names ▸ List.mem_map_of_mem hv
  have hfields : v.tag.fields ∈ specs.map (·.fields) := hdeclared.fields ▸ List.mem_map_of_mem hv
  obtain ⟨spec, hspec, heq⟩ := List.mem_map.mp hname
  obtain ⟨spec', hspec', heq'⟩ := List.mem_map.mp hfields
  exact ⟨heq ▸ hgood.variants spec hspec, heq' ▸ hgood.fields spec' hspec'⟩

theorem Reachable.named {k : Holder} (hk : k.Reachable) :
    ∀ p ∈ k.client.declared, p.2.Named := by
  induction hk with
  | refl => exact List.forall_mem_nil _
  | tail hsteps hstep ih =>
    cases hstep with
    | client c h hheld =>
      cases h with
      | declare r name base? specs d w hr hb hrun =>
        intro p hp
        rcases List.mem_append.mp hp with hp | hp
        · exact ih p hp
        · obtain ⟨v, hv, rfl⟩ := List.mem_map.mp hp
          exact (Reachable.sound hsteps).declare_named hr hb hrun v hv
      | _ => exact ih
    | _ => exact ih

/-- Instances of declared variants, with a value for each field. -/
def Instances (k : Holder) (tag : Tag) (values : List Value) : Prop :=
  (∃ r, (r, tag) ∈ k.client.declared) ∧ values.length = tag.arity

/-- There are such instances alone, and held data makes such instances alone. -/
theorem Reachable.reports {k : Holder} (hk : k.Reachable)
    (hdata : ∀ name d, k.world.binding? name = some (.data d) → d ∈ k.data)
    (htraits : ∀ t ∈ k.world.traits, t.Reports k.Instances) : k.world.Reports k.Instances where
  instances id tag values ho := by
    obtain ⟨r, -, hknown, -⟩ := hk.sound.client.world.instances id tag values ho
    exact ⟨⟨r, hknown⟩, hk.fielded.full id tag values ho⟩
  data name d hd v hv values hlength :=
    ⟨⟨v.registry, (hk.sound.has (.inr ⟨d, hdata name d hd, hv⟩)).known⟩, hlength⟩
  traits := htraits

end Holder

/-- The site is a field of a declared variant, and neither name is empty. -/
structure FieldSite.In (k : Holder) (site : FieldSite) : Prop where
  declared : ∃ r tag, (r, tag) ∈ k.client.declared ∧ site.variant = tag.name ∧
    site.field ∈ tag.fields
  variant : site.variant ≠ ""
  field : site.field ≠ ""

theorem Holder.Reachable.site {k : Holder} (hk : k.Reachable) {site : FieldSite}
    (h : site.Of k.Instances) : site.In k := by
  obtain ⟨tag, values, index, id, ⟨⟨r, hknown⟩, hlength⟩, hvalue, rfl⟩ := h
  have hindex : index < tag.fields.length :=
    Nat.lt_of_lt_of_eq (List.getElem?_eq_some_iff.mp hvalue).1 hlength
  have hfield := List.getElem?_eq_getElem hindex
  have hnamed := hk.named _ hknown
  rw [hfield]
  exact ⟨⟨r, tag, hknown, rfl, List.getElem_mem hindex⟩, hnamed.variant.ne_empty,
    (hnamed.fields _ (List.getElem_mem hindex)).ne_empty⟩

/-! ### Ways to read a field -/

theorem Fault.located_of_ne {f : Fault} (h : ∀ trouble, f ≠ .unresolved none trouble)
    (site : FieldSite) : f.located site = f := by
  unfold located
  split
  · next trouble => exact absurd rfl (h trouble)
  · rfl

/-- What the reading of a field makes of what its lazy comes to: an unresolved field without a
site gets this one, and all else is as it was. -/
inductive FieldSite.Passes (site : FieldSite) : Except Stop Value → Except Stop Value → Prop
  | unresolved {trouble : KnotTrouble} :
    Passes site (.error (.fault (.unresolved none trouble)))
      (.error (.fault (.unresolved (some site) trouble)))
  | other {result : Except Stop Value}
    (h : ∀ trouble, result ≠ .error (.fault (.unresolved none trouble))) : Passes site result result

theorem FieldSite.Passes.sited {site : FieldSite} {result result' : Except Stop Value}
    (h : site.Passes result result') (trouble : KnotTrouble) :
    result' ≠ .error (.fault (.unresolved none trouble)) := by
  cases h with
  | unresolved =>
    intro heq
    cases heq
  | other h => exact h trouble

theorem FieldSite.passes_at (site : FieldSite) {x : Run Value} {w w' : World}
    {result : Except Stop Value} (h : x w = (result, w')) :
    ∃ result', x.at site w = (result', w') ∧ site.Passes result result' := by
  unfold Run.at
  rw [h]
  rcases result with (f | _) | v
  · by_cases hf : ∃ trouble, f = .unresolved none trouble
    · obtain ⟨trouble, rfl⟩ := hf
      exact ⟨_, rfl, .unresolved⟩
    · have hother : ∀ trouble, f ≠ .unresolved none trouble := not_exists.mp hf
      refine ⟨.error (.fault f), ?_, .other fun trouble h => ?_⟩
      · dsimp only
        rw [Fault.located_of_ne hother]
      · cases h
        exact hother trouble rfl
  · refine ⟨.error .exhausted, rfl, .other fun _ h => ?_⟩
    cases h
  · refine ⟨.ok v, rfl, .other fun _ h => ?_⟩
    cases h

theorem Run.bind_ite (x : Run Bool) :
    (x >>= fun b => if b = true then pure true else pure false) = x := by
  have hpure : (fun b => if b = true then pure true else pure false : Bool → Run Bool) = pure := by
    funext b
    cases b <;> rfl
  rw [hpure, bind_pure]

/-- However a field with a name and a place is read, there is one outcome. -/
structure World.OneOutcome (w : World) (n : Nat) (frame : Option Frame) (id : ObjectId) (tag : Tag)
    (values : List Value) (index : Nat) (name : String) (stored : Value) (outcome : Run Value) :
    Prop where
  byName : (Program.readField (.inst id) name).run (perform (n + 1)) frame w = outcome w
  byPosition : (Program.readFieldAt (.inst id) index).run (perform (n + 1)) frame w = outcome w
  /-- As the first of the fields that are left. -/
  inFields : ∀ count, (Program.readFields id (count + 1) index).run (perform (n + 1)) frame w =
    (outcome >>= fun v => (Program.readFields id count (index + 1) >>= fun rest =>
      pure (v :: rest)).run (perform (n + 1)) frame) w
  inEntries : ∀ names,
    (Program.readEntries id (name :: names) index).run (perform (n + 1)) frame w =
    (outcome >>= fun v => (Program.newList [.text name, v] >>= fun pair =>
      Program.readEntries id names (index + 1) >>= fun rest =>
        pure (pair :: rest)).run (perform (n + 1)) frame) w
  inRecord : ∀ p, unify (perform n) (.record [(name, p)]) (.inst id) w =
    (outcome >>= unify (perform n) p) w
  /-- As one of the fields that patterns in a row are for. -/
  inRow : ∃ reads, reads[index]? = some outcome ∧ ∀ ps, values.length = ps.length →
    unify (perform n) (.list ps) (.inst id) w = unifyEach (perform n) (ps.zip reads) w ∧
      unify (perform n) (.variant tag ps) (.inst id) w = unifyEach (perform n) (ps.zip reads) w
  /-- What is stored is what is read, unless it is a lazy. -/
  plain : (∀ lid, stored ≠ .lazy lid) → outcome w = (.ok stored, w)
  lazy : ∀ lid, stored = .lazy lid → ∃ result result' w',
    perform n none (.force lid) w = (result, w') ∧ outcome w = (result', w') ∧
      FieldSite.Passes ⟨tag.name, name⟩ result result'
  sited : ∀ trouble, (outcome w).1 ≠ .error (.fault (.unresolved none trouble))
  /-- While the lazy is evaluated, the field is being read. -/
  forces : ∀ lid, stored = .lazy lid → ∀ stack, ∃ p : Pending, p.Reads ⟨tag.name, name⟩ ∧
    Moment.Leads ⟨.request (n + 1) frame (.read id index), stack, w⟩
      ⟨.request n none (.force lid), p :: stack, w⟩

section
variable {w : World} {id : ObjectId} {tag : Tag} {values : List Value} {index : Nat} {name : String}
  {stored : Value}

theorem readField_plain (P : Performer) (tag : Tag) (index : Nat) (w : World)
    (hplain : ∀ lid, stored ≠ .lazy lid) : readField P tag index stored w = (.ok stored, w) := by
  cases stored with
  | lazy lid => exact absurd rfl (hplain lid)
  | _ => rfl

theorem readField_lazy (P : Performer) (hname : tag.fields[index]? = some name) (lid : ObjectId)
    (w : World) :
    ∃ result result' w', P none (.force lid) w = (result, w') ∧
      readField P tag index (.lazy lid) w = (result', w') ∧
        FieldSite.Passes ⟨tag.name, name⟩ result result' := by
  obtain ⟨result', houtcome, hpasses⟩ := FieldSite.passes_at ⟨tag.name, name⟩
    (x := P none (.force lid)) (w := w) rfl
  refine ⟨_, result', _, rfl, ?_, hpasses⟩
  rw [readField, hname]
  exact houtcome

theorem leads_of_read (hinst : w.heap.instance? (.inst id) = some (tag, values))
    (hname : tag.fields[index]? = some name) {lid : ObjectId}
    (hstored : values[index]? = some (.lazy lid)) (n : Nat) (frame : Option Frame)
    (stack : List Pending) :
    ∃ p : Pending, p.Reads ⟨tag.name, name⟩ ∧
      Moment.Leads ⟨.request (n + 1) frame (.read id index), stack, w⟩
        ⟨.request n none (.force lid), p :: stack, w⟩ := by
  have hcontent : w.answer none (.content (.inst id)) = some (.fields tag values) := by
    obtain ⟨_, -, hcontent⟩ := Heap.content?_of_instance hinst
    exact hcontent
  have hvalue : Program.indexedValue tag values index =
      Program.fieldValue tag index (.lazy lid) := by
    unfold Program.indexedValue
    rw [hstored]
  rw [Program.fieldValue_lazy, hname] at hvalue
  have hasked : Moment.next ⟨.run n none (Program.fieldAt id index), stack, w⟩ =
      ⟨.run n none (Program.indexedValue tag values index), stack, w⟩ := by
    simp only [Moment.next, Moment.stepped, Program.fieldAt, Program.instanceOf, Program.bind_eq,
      Program.query, Program.bind, hcontent]
    rfl
  refine ⟨.body n none fun result => Program.afterForce ⟨tag.name, name⟩ result >>= pure,
    ⟨n, none, pure, rfl⟩, .of_next (.of_next ?_)⟩
  change Moment.Leads (Moment.next ⟨.run n none (Program.fieldAt id index), stack, w⟩) _
  rw [hasked, hvalue]
  exact .of_next (.refl _)

theorem outcome_of_instance (hinst : w.heap.instance? (.inst id) = some (tag, values))
    (hfields : tag.fields.Nodup) (hname : tag.fields[index]? = some name)
    (hstored : values[index]? = some stored) (n : Nat) (frame : Option Frame) :
    w.OneOutcome n frame id tag values index name stored
      (readField (perform n) tag index stored) := by
  have hindex := (List.getElem?_eq_some_iff.mp hname).1
  have hfound : tag.fieldIndex? name = some index := by
    rw [← (List.getElem?_eq_some_iff.mp hname).2]
    exact Tag.fieldIndex?_getElem hfields hindex
  have hread : (fieldReads (perform n) tag values)[index]? =
      some (readField (perform n) tag index stored) := by
    rw [fieldReads, List.getElem?_mapIdx, hstored]
    rfl
  have hrequest := run_read hinst hstored n frame
  constructor
  case byName => exact run_readField hinst hfound hstored n frame
  case byPosition =>
    rw [Program.readFieldAt, Program.run_bind, Run.bind_apply, run_expectInstance hinst]
    exact hrequest
  case inFields =>
    intro count
    rw [Program.readFields, Program.run_bind, Run.bind_apply, hrequest, Run.bind_apply]
  case inEntries =>
    intro names
    rw [Program.readEntries, Program.run_bind, Run.bind_apply, hrequest, Run.bind_apply]
  case inRecord =>
    intro p
    obtain ⟨_, -, hcontent⟩ := Heap.content?_of_instance hinst
    rw [unify, Run.bind_apply, Run.get_apply]
    simp only [hcontent, unifyEntries, hfound, Option.bind_some, hread, Run.bind_ite]
  case inRow =>
    refine ⟨_, hread, fun ps hlength => ⟨?_, ?_⟩⟩
    · rw [unify_list_inst hinst hlength, unifyItems_eq]
    · rw [unify_variant_inst hinst hlength, unifyItems_eq]
  case plain => exact readField_plain (perform n) tag index w
  case lazy =>
    intro lid hlazy
    subst hlazy
    exact readField_lazy (perform n) hname lid w
  case sited =>
    intro trouble
    by_cases hlazy : ∃ lid, stored = .lazy lid
    · obtain ⟨lid, rfl⟩ := hlazy
      obtain ⟨_, result', w', -, houtcome, hpasses⟩ := readField_lazy (perform n) hname lid w
      rw [houtcome]
      exact hpasses.sited trouble
    · rw [readField_plain (perform n) tag index w (not_exists.mp hlazy)]
      intro h
      cases h
  case forces =>
    intro lid hlazy
    subst hlazy
    exact leads_of_read hinst hname hstored n frame

end

/-! ### Runs -/

/-- A run that begins with a program outside of all calls. -/
def Moment.running (n : Nat) (p : Program Value) (w : World) (k : Nat) : Moment :=
  after k ⟨.run n none p, [], w⟩

/-- **Unresolved fields name the innermost read.** Whatever a program has come to, let its traits
pass unresolved fields on and make no instances but those of declared variants, and let it
evaluate what does so too, such as any expression. At whatever moment a knot is read that is not
tied or whose target was dropped, and what reads it fails with that, the whole evaluation fails
with an unresolved field. The site in it is that of the innermost read in progress then. All that
waits inside of that read gets the fault without a site, and all that waits outside of it, reads
and calls, gets it with this one. All sites are fields of declared variants, and none has an
empty name.

At every moment the reading of a field of an instance has one outcome: by its name, by its
position, along with all fields, along with all entries, or for a pattern. What a lazy that is
stored there comes to, be it a value or a fault, is the outcome as it is, but an unresolved field
without a site gets the site of this one. -/
theorem Holder.Reachable.unresolved_named {k : Holder} (hk : k.Reachable)
    (hdata : ∀ name d, k.world.binding? name = some (.data d) → d ∈ k.data)
    (htraits : ∀ t ∈ k.world.traits, t.Reports k.Instances) {p : Program Value}
    (hp : p.Reports k.Instances) (n i : Nat) {m : Moment}
    (hm : m = Moment.running n p k.world i) :
    (∀ j frame id next f, m.control = .run j frame (.ask (.knot id) next) →
      m.world.knotTarget id = .error f → (next (.error f)).Raises f →
      ∃ trouble sites w, f = .unresolved none trouble ∧ m.Unwinds trouble sites ∧
        (∀ site ∈ sites, site.In k) ∧ p.run (perform n) none k.world =
          (.error (.fault (.unresolved sites.head? trouble)), w)) ∧
    ∀ id tag values index name, m.world.heap.instance? (.inst id) = some (tag, values) →
      tag.fields[index]? = some name → ∃ stored, values[index]? = some stored ∧ ∀ j frame,
        ∃ outcome, m.world.OneOutcome j frame id tag values index name stored outcome := by
  have hreports : m.Reports k.Instances :=
    hm ▸ Moment.Reports.after ⟨.run Frame.reports_none hp, List.forall_mem_nil _,
      hk.reports hdata htraits⟩ i
  refine ⟨fun j frame id next f hcontrol hknot hraises => ?_,
    fun id tag values index name hinst hname => ?_⟩
  · obtain ⟨trouble, rfl⟩ := World.knotTarget_error hknot
    obtain ⟨sites, hsites, hunwinds⟩ := hreports.unwinds hcontrol hknot hraises
    obtain ⟨first, rest, w, rfl, -, hrest, hleads⟩ := hunwinds.reaches m.stack [] (by simp)
    cases hrest
    rw [List.append_nil] at hunwinds hsites
    refine ⟨trouble, first, w, rfl, hunwinds, fun site hsite => hk.site (hsites site hsite), ?_⟩
    -- The run ends with what evaluation gives, and with the fault.
    have hanswers := Moment.answers (.run n none p) [] k.world
    have hend := Moment.Leads.unique hanswers (Moment.Leads.trans ⟨i, hm.symm⟩ hleads)
    exact Prod.ext hend.1 hend.2
  · obtain ⟨_, hid, ho⟩ := Heap.instance?_eq_some.mp hinst
    cases hid
    obtain ⟨⟨r, hknown⟩, hlength⟩ := hreports.world.instances id tag values ho
    have hindex : index < values.length :=
      Nat.lt_of_lt_of_eq (List.getElem?_eq_some_iff.mp hname).1 hlength.symm
    have hdistinct := hk.fielded.distinct _ hknown
    exact ⟨values[index], List.getElem?_eq_getElem hindex, fun j frame => ⟨_,
      outcome_of_instance hinst hdistinct hname (List.getElem?_eq_getElem hindex) j frame⟩⟩

/-! ### A field in a call in a field -/

/-- A trait that reads the last field of a triple. -/
def thirds : Trait :=
  ⟨⟨0, "third", none, [("Triple", .handler (Expr.asCase (.field (.arg 0) "third")))], none, 512⟩,
    []⟩

theorem thirds_reports (insts : Tag → List Value → Prop) : thirds.Reports insts := by
  intro l hl
  cases List.mem_singleton.mp hl
  refine ⟨fun c hc => ?_, nofun⟩
  cases List.mem_singleton.mp hc
  exact fun args => Expr.keepsTo_meaning _ _

namespace Holder

/-- The program that declared triples and took a clone of their variant, with the trait and a
knot that is not tied. -/
def untied : Holder :=
  ⟨{Client.triples with world := {Client.triples.world with
      traits := #[thirds], knots := #[none],
      bindings := [("thirds", .trait 0), ("inner", .value (.inst 1))]}},
    [Client.triple]⟩

/-- The program after it made a lazy, and a triple with that in one of its fields. -/
def withTriple (k : Holder) (body : LazyBody) (fields : Value → List Value) : Holder :=
  let (x, w) := k.world.newLazy body
  k.withWorld ((Form.positional (fields x)).run Client.triple w).2

/-- The last field of the inner triple reads the knot, and the first one of the outer triple
calls the trait on the inner one. -/
def nested : Holder :=
  (untied.withTriple (.knot 0) fun x => [.null, .null, x]).withTriple
    (.expr (.call "thirds" [.named "inner"])) fun x => [x, .null, .null]

theorem withTriple_reachable {k : Holder} (hk : k.Reachable) (htriple : Client.triple ∈ k.variants)
    (body : LazyBody) (fields : Value → List Value) (id : ObjectId)
    (hplain : ∀ v ∈ fields (k.world.newLazy body).1,
      v.object? = none ∨ v = (k.world.newLazy body).1)
    (hrun : (Form.positional (fields (k.world.newLazy body).1)).run Client.triple
      (k.world.newLazy body).2 = (.ok (.inst id), (k.withTriple body fields).world)) :
    (k.withTriple body fields).Reachable := by
  have hlazy : Step k (k.withWorld (k.world.newLazy body).2) :=
    hk.sound.client_step (.lazy k.client body) (Heap.extends_push _ _)
  refine (hk.tail hlazy).tail (.construct Client.triple _ (.inst id) _ htriple (fun v hv => ?_) hrun)
  rcases hplain v hv with hv | rfl
  · exact Heap.proper_of_plain hv
  · have ho : (k.world.heap.push (.lazy body)).object? k.world.heap.size = some (.lazy body) := by
      rw [Heap.object?_push, if_pos rfl]
    exact Heap.proper_reference ho

theorem nested_reachable : nested.Reachable := by
  have htriples : Reachable ⟨Client.triples, []⟩ := Steps.of_client Client.triples_reachable
  have hcloned : Reachable ⟨Client.triples, [Client.triple]⟩ :=
    htriples.tail (.clone _ Client.triple List.mem_cons_self List.mem_cons_self)
  have huntied : untied.Reachable := hcloned.tail (hcloned.sound.other rfl rfl rfl)
  have hinner := withTriple_reachable huntied List.mem_cons_self (.knot 0)
    (fun x => [.null, .null, x]) 1 (by simp [Value.object?]) rfl
  exact withTriple_reachable hinner List.mem_cons_self _ _ 3 (by simp [Value.object?]) rfl

/-- The fault names the last field of the inner triple, not the first one of the outer. -/
theorem nested_names_inner :
    ∃ sites w, (Moment.running 5 (Program.readField (.inst 3) "first") nested.world 18).Unwinds
        .untied sites ∧ sites.head? = some ⟨"Triple", "third"⟩ ∧
      (Program.readField (.inst 3) "first").run (perform 5) none nested.world =
        (.error (.fault (.unresolved (some ⟨"Triple", "third"⟩) .untied)), w) := by
  have hdata : ∀ name d, nested.world.binding? name = some (.data d) → d ∈ nested.data := by
    intro name d h
    obtain ⟨before, after, hbindings, -⟩ := List.lookup_eq_some_iff.mp h
    have hmem : (name, Binding.data d) ∈ nested.world.bindings := hbindings ▸ by simp
    rcases List.mem_pair.mp hmem with heq | heq <;> cases heq
  have htraits : ∀ t ∈ nested.world.traits, t.Reports nested.Instances := by
    intro t ht
    cases List.mem_singleton.mp (Array.mem_toList_iff.mpr ht)
    exact thirds_reports _
  obtain ⟨hruns, -⟩ := nested_reachable.unresolved_named hdata htraits
    (Program.keepsTo_readField (.inst 3) "first") 5 18 rfl
  obtain ⟨trouble, sites, w, hfault, hunwinds, -, hrun⟩ := hruns 0 none 0
    (fun result => .done result) (.unresolved none .untied) rfl rfl .fail
  cases hfault
  have hfound : ((Program.readField (.inst 3) "first").run (perform 5) none nested.world).1 =
      .error (.fault (.unresolved (some ⟨"Triple", "third"⟩) .untied)) := by decide +kernel
  have hsite : sites.head? = some ⟨"Triple", "third"⟩ := by simpa [hrun] using hfound
  exact ⟨sites, w, hunwinds, hsite, hsite ▸ hrun⟩

end Holder

end OpenVariants

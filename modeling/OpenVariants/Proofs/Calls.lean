import OpenVariants.Proofs.Bodies
import OpenVariants.Proofs.Pure

/-! Calls in lockstep.

What lies between a request and the bodies that it runs — fields, patterns, dispatch,
memo tables, the guard on the nesting of calls — does not tell worlds apart that only
sweeps do. So every performer that evaluation uses is steady (`steady_perform`). -/
namespace OpenVariants

open World

/-! ### Fields and patterns -/

namespace Run
variable {P : Performer} {w : World}

theorem steady_readField (hP : P.Steady) (tag : Tag) (index : Nat) {v : Value} (hv : w.HasValue v) :
    (readField P tag index v).Steady HasValue w := by
  unfold readField
  split
  · exact (hP w none (.force _) trivial trivial).at _
  · exact steady_pure fun _ ho => hv.onward ho

theorem steady_fieldReads (hP : P.Steady) (tag : Tag) {values : List Value} (h : w.Has values) :
    ∀ read ∈ fieldReads P tag values, read.Steady HasValue w := by
  intro read hread
  obtain ⟨index, hindex, rfl⟩ := List.mem_mapIdx.mp hread
  exact steady_readField hP tag index (h _ (List.getElem_mem hindex))

theorem steady_indexedRead (hP : P.Steady) (tag : Tag) {values : List Value} (h : w.Has values)
    (index : Nat) : (indexedRead P tag values index).Steady HasValue w := by
  unfold indexedRead
  split
  · next v hv => exact steady_readField hP tag index (h v (List.mem_of_getElem? hv))
  · exact steady_fail _

theorem steady_readAt (hP : P.Steady) (id : ObjectId) (index : Nat) :
    (readAt P id index).Steady HasValue w := by
  refine steady_get (fun w' _ hfit => ?_) fun _ _ => rfl
  split
  · exact steady_pure fun _ _ => hasValue_of_plain rfl
  · next tag values hinst =>
    exact steady_indexedRead hP tag (hfit.instance hinst) index

mutual

theorem steady_unify (hP : P.Steady) (p : Pattern) (v : Value) {w : World} :
    (unify P p v).Steady (fun _ _ => True) w := by
  cases p with
  | wildcard | literal | kind => exact steady_pure fun _ _ => trivial
  | tag t | data t =>
    exact steady_get (fun _ _ _ => steady_pure fun _ _ => trivial) fun _ _ => rfl
  | record entries =>
    refine steady_get (fun w' _ hfit => ?_) fun _ _ => rfl
    split
    · next values hcontent =>
      refine steady_unifyEntries hP entries fun key read hread => ?_
      obtain ⟨u, hu, rfl⟩ := Option.map_eq_some_iff.mp hread
      obtain ⟨before, after, rfl, _⟩ := List.lookup_eq_some_iff.mp hu
      have hin : w'.HasValue u := hfit.content hcontent u (by simp [Content.children])
      exact steady_pure fun _ ho => hin.onward ho
    · next tag values hcontent =>
      refine steady_unifyEntries hP entries fun key read hread => ?_
      obtain ⟨index, _, hindex⟩ := Option.bind_eq_some_iff.mp hread
      exact steady_fieldReads hP tag (hfit.content hcontent) read (List.mem_of_getElem? hindex)
    · exact steady_pure fun _ _ => trivial
  | list items =>
    refine steady_get (fun w' _ hfit => ?_) fun _ _ => rfl
    split
    · next values hcontent =>
      split
      · refine steady_unifyItems hP items fun read hread => ?_
        obtain ⟨u, hu, rfl⟩ := List.mem_map.mp hread
        have hin : w'.HasValue u := hfit.content hcontent u hu
        exact steady_pure fun _ ho => hin.onward ho
      · exact steady_pure fun _ _ => trivial
    · next tag values hcontent =>
      split
      · exact steady_unifyItems hP items (steady_fieldReads hP tag (hfit.content hcontent))
      · exact steady_pure fun _ _ => trivial
    · exact steady_pure fun _ _ => trivial
  | variant t fields =>
    refine steady_get (fun w' _ hfit => ?_) fun _ _ => rfl
    split
    · next tag values hinst =>
      split
      · refine steady_unifyItems hP fields fun read hread => ?_
        obtain ⟨index, _, rfl⟩ := List.mem_mapIdx.mp hread
        exact steady_indexedRead hP tag (hfit.instance hinst) index
      · exact steady_pure fun _ _ => trivial
    · exact steady_pure fun _ _ => trivial

theorem steady_unifyItems (hP : P.Steady) (patterns : List Pattern) {reads : List (Run Value)}
    {w : World} (hreads : ∀ read ∈ reads, read.Steady HasValue w) :
    (unifyItems P patterns reads).Steady (fun _ _ => True) w := by
  cases patterns with
  | nil => exact steady_pure fun _ _ => trivial
  | cons p patterns =>
    cases reads with
    | nil => exact steady_pure fun _ _ => trivial
    | cons read reads =>
      refine (hreads read List.mem_cons_self).bind fun w₁ v ho₁ _ =>
        (steady_unify hP p v).bind fun w₂ matched ho₂ _ => ?_
      split
      · exact steady_unifyItems hP patterns fun read' h =>
          (hreads read' (List.mem_cons_of_mem _ h)).later (ho₁.trans ho₂)
      · exact steady_pure fun _ _ => trivial

theorem steady_unifyEntries (hP : P.Steady) (entries : List (String × Pattern))
    {read? : String → Option (Run Value)} {w : World}
    (hreads : ∀ key read, read? key = some read → read.Steady HasValue w) :
    (unifyEntries P entries read?).Steady (fun _ _ => True) w := by
  cases entries with
  | nil => exact steady_pure fun _ _ => trivial
  | cons e rest =>
    obtain ⟨key, p⟩ := e
    unfold unifyEntries
    split
    · exact steady_pure fun _ _ => trivial
    · next read hread =>
      refine (hreads key read hread).bind fun w₁ v ho₁ _ =>
        (steady_unify hP p v).bind fun w₂ matched ho₂ _ => ?_
      split
      · exact steady_unifyEntries hP rest fun key read' h =>
          (hreads key read' h).later (ho₁.trans ho₂)
      · exact steady_pure fun _ _ => trivial

end

/-! ### Rules and cases -/

theorem steady_matches (hP : P.Steady) {args : List Value} (hargs : w.Has args) (rule : Rule) :
    (rule.matches P args).Steady (fun _ _ => True) w := by
  refine steady_unifyItems hP rule.patterns fun read hread => ?_
  obtain ⟨index, _, rfl⟩ := List.mem_mapIdx.mp hread
  exact steady_pure fun _ ho => (hargs.getD index).onward ho

/-- The rule that is selected is one of the rules. -/
theorem steady_select (hP : P.Steady) {args : List Value} (hargs : w.Has args) (rules : List Rule) :
    (Rules.select P args rules).Steady (fun _ rule? => ∀ rule, rule? = some rule → rule ∈ rules) w := by
  induction rules generalizing w with
  | nil => exact steady_pure fun _ _ _ h => nomatch h
  | cons rule rest ih =>
    refine (steady_matches hP hargs rule).bind fun w' matched ho _ => ?_
    split
    · exact steady_pure fun _ _ _ h => Option.some.inj h ▸ List.mem_cons_self
    · exact (ih (hargs.onward ho)).mono fun _ _ _ h rule' hrule =>
        List.mem_cons_of_mem _ (h rule' hrule)

theorem steady_asCase (hP : P.Steady) (e : Expr) {frame : Option Frame} {args : List Value}
    (hframe : w.HasFrame frame) (hargs : w.Has args) :
    ((e.asCase args).run P frame).Steady HasValue w :=
  e.steady_meaning (.ofArgs hargs true) P hP frame hframe

theorem steady_asFunction (hP : P.Steady) (e : Expr) {args : List Value} (hargs : w.Has args) :
    ((e.asFunction args).run P none).Steady HasValue w :=
  e.steady_meaning (.ofArgs hargs false) P hP none trivial

theorem steady_case (hP : P.Steady) {c : Case} (hc : c.Textual) {frame : Frame} (name : String)
    {args : List Value} (hframe : w.HasFrame (some frame)) (hargs : w.Has args) :
    (c.run P frame name args).Steady HasValue w := by
  cases c with
  | handler body =>
    obtain ⟨e, rfl⟩ := hc
    exact steady_asCase hP e hframe hargs
  | rules list =>
    refine (steady_select hP hargs list.rules).bind fun w' rule? ho hrule => ?_
    split
    · next rule =>
      obtain ⟨e, he⟩ := hc rule (hrule rule rfl)
      rw [he]
      exact steady_asCase hP e (hframe.onward ho) (hargs.onward ho)
    · exact steady_get (fun _ _ _ => steady_fail _) fun _ _ => rfl

end Run

/-! ### Links of a chain -/

/-- A resolution is a case of its owner's own layer. -/
theorem resolve_own {t : Trait} {tag : String} {found : Resolution}
    (h : t.resolve? tag = some found) : found.owner.own? found.name = some found := by
  have hown : ∀ {u : Trait} {name : String} {r : Resolution}, u.own? name = some r →
      r.owner.own? r.name = some r := by
    intro u name r hr
    obtain ⟨c, _, rfl⟩ := Option.map_eq_some_iff.mp hr
    exact hr
  have halong : ∀ bases layer pending, (∀ p, pending = some p → p.owner.own? p.name = some p) →
      Trait.resolveAlong tag pending layer bases = some found →
      found.owner.own? found.name = some found := by
    intro bases
    induction bases with
    | nil =>
      intro layer pending hpending h
      simp only [Trait.resolveAlong, Option.or_eq_some_iff] at h
      rcases h with h | ⟨_, h | ⟨_, h⟩⟩
      · exact hown h
      · exact hpending found h
      · exact hown h
    | cons next rest ih =>
      intro layer pending hpending h
      simp only [Trait.resolveAlong] at h
      split at h
      · next p hp =>
        cases h
        exact hown hp
      · refine ih next _ (fun p hp => ?_) h
        rcases Option.or_eq_some_iff.mp hp with hp | ⟨_, hp⟩
        · exact hpending p hp
        · exact hown hp
  exact halong t.bases t.layer none (by simp) h

theorem resolve_mem {t : Trait} {tag : String} {found : Resolution}
    (h : t.resolve? tag = some found) : (found.name, found.case) ∈ found.owner.layer.cases := by
  obtain ⟨c, hc, hfound⟩ := Option.map_eq_some_iff.mp (resolve_own h)
  have hcase : c = found.case := by rw [← hfound]
  obtain ⟨before, after, hsplit, _⟩ := List.lookup_eq_some_iff.mp (hcase ▸ hc)
  rw [hsplit]
  exact List.mem_append_right _ List.mem_cons_self

namespace World
variable {w : World}

/-- With a trait all links of its chain are in hand. -/
theorem HasTrait.link {t u : Trait} (h : w.HasTrait t) (hlink : t.Link u) : w.HasTrait u where
  values v hv := by
    obtain ⟨l, hl, hin⟩ := List.mem_flatMap.mp hv
    exact h.values v (List.mem_flatMap.mpr ⟨l, hlink.subset hl, hin⟩)
  stores id hid := by
    obtain ⟨l, hl, hin⟩ := List.mem_filterMap.mp hid
    exact h.stores id (List.mem_filterMap.mpr ⟨l, hlink.subset hl, hin⟩)
  textual l hl := h.textual l (hlink.subset hl)

theorem HasTrait.owns {t : Trait} {memo : Memo} (h : w.HasTrait t) (hm : t.layer.memo? = some memo) :
    w.Owns memo.store :=
  h.stores memo.store (List.mem_filterMap.mpr ⟨t.layer, List.mem_cons_self, by rw [hm]; rfl⟩)

theorem HasTrait.bottom {t : Trait} {memo : Memo} (h : w.HasTrait t) (hm : t.layer.memo? = some memo) :
    w.Has memo.bottom.heldValues := fun v hv => by
  refine h.values v (List.mem_flatMap.mpr ⟨t.layer, List.mem_cons_self, ?_⟩)
  refine List.mem_append_right _ ?_
  rw [hm]
  exact hv

/-- What is found in a store whose strong values are in hand is in hand. -/
theorem Owns.stored? {id : StoreId} {path : List Key} {v : Value} (h : w.Owns id) (hw : w.Fit)
    (hv : w.stored? id path = some v) : w.HasValue v := by
  obtain ⟨s, hs, hget⟩ := Option.bind_eq_some_iff.mp hv
  obtain ⟨held, hheld, hload⟩ := Option.bind_eq_some_iff.mp hget
  unfold Store.Stored.load at hload
  split at hload
  · next halive =>
    cases hload
    cases held with
    | strong u => exact h s hs path u hheld
    | weak u => exact (hw.tables.stored id s hs path _ hheld).proper halive
  · cases hload

end World

/-! ### Dispatch -/

namespace Run
variable {P : Performer} {w : World}

theorem steady_dispatch (hP : P.Steady) {t : Trait} (ht : w.HasTrait t) (receiver : Value)
    {args : List Value} (hargs : w.Has args) :
    (t.dispatch P receiver args).Steady HasValue w := by
  refine steady_get (fun w' ho _ => ?_) fun _ _ => rfl
  have ht' := ht.onward ho
  dsimp only
  split
  · next found hfound =>
    have howner := ht'.link (resolve_link hfound)
    have htextual := howner.textual _ List.mem_cons_self
    exact steady_case hP (htextual.cases _ (resolve_mem hfound)) found.name ⟨ht', howner⟩
      (hargs.onward ho)
  · exact steady_fail _

theorem steady_bottom (hP : P.Steady) {b : Bottom} (hb : b.Textual) (hheld : w.Has b.heldValues)
    {args : List Value} (hargs : w.Has args) : (b.run P args).Steady HasValue w := by
  cases b with
  | value v => exact steady_pure fun _ ho => HasValue.onward (hheld v List.mem_cons_self) ho
  | compute body =>
    obtain ⟨e, rfl⟩ := hb
    exact steady_asFunction hP e hargs

/-! ### Nesting -/

/-- How calls are nested is nobody's business but theirs. -/
theorem Steady.nested {x : Run Value} (hx : x.Steady HasValue w) (enter leave : Nesting → Nesting) :
    Steady (fun w =>
      let (result, w) := x {w with nesting := enter w.nesting}
      (result, {w with nesting := leave w.nesting})) HasValue w := by
  have hnesting : ∀ (w : World) n, w.Onward {w with nesting := n} :=
    fun _ _ => onward_of_eq rfl rfl rfl rfl rfl rfl
  intro w' rs ho ht
  have hin := hnesting w' (enter w'.nesting)
  obtain ⟨r, w₁, rs₁, hrun, hrun', ht₁, ho₁, hpost⟩ := hx _ rs (ho.trans hin) (ht.onward hin rfl)
  have hout := hnesting w₁ (leave w₁.nesting)
  refine ⟨r, {w₁ with nesting := leave w₁.nesting}, rs₁, ?_, ?_, ht₁.onward hout rfl,
    (hin.trans ho₁).trans hout, fun v hv => (hpost v hv).onward hout⟩
  · simp only [hrun]
  · have hrun'' : x {w' with registries := rs, nesting := enter w'.nesting} =
        (r, {w₁ with registries := rs₁}) := hrun'
    simp only [hrun'']

theorem Steady.guarded {x : Run Value} (hx : x.Steady HasValue w) (t : Trait) :
    (t.guarded x).Steady HasValue w := by
  have hsegment : x.inSegment.Steady HasValue w := by
    intro w' rs ho ht
    by_cases hboundary : w'.nesting.atBoundary = true
    · obtain ⟨r, w₁, rs₁, hrun, hrun', hrest⟩ := (hx.nested (·.suspend) (·.resume)) w' rs ho ht
      exact ⟨r, w₁, rs₁, (if_pos hboundary).trans hrun, (if_pos hboundary).trans hrun', hrest⟩
    · obtain ⟨r, w₁, rs₁, hrun, hrun', hrest⟩ := hx w' rs ho ht
      exact ⟨r, w₁, rs₁, (if_neg hboundary).trans hrun, (if_neg hboundary).trans hrun', hrest⟩
  intro w' rs ho ht
  by_cases hfull : t.layer.maxDepth ≤ w'.nesting.current
  · refine ⟨_, w', rs, Trait.guarded_full hfull x, ?_, ht, .refl w', nofun⟩
    exact Trait.guarded_full (w := {w' with registries := rs}) hfull x
  · obtain ⟨r, w₁, rs₁, hrun, hrun', hrest⟩ := (hsegment.nested (·.enter) (·.leave)) w' rs ho ht
    exact ⟨r, w₁, rs₁, (if_neg hfull).trans hrun, (if_neg hfull).trans hrun', hrest⟩

/-! ### Memo tables -/

theorem registries_reclaimed (w : World) (since : ObjectId) :
    (w.reclaimed since).registries = w.registries := by
  unfold World.reclaimed
  split <;> rfl

theorem reclaimed_registries (w : World) (since : ObjectId) (rs : Array Registry) :
    ({w with registries := rs} : World).reclaimed since =
      {w.reclaimed since with registries := rs} := by
  unfold World.reclaimed
  split <;> rfl

/-- A miss is in step. What it makes for the bottom may die before the case runs; what
was in hand before does not. -/
theorem steady_fill (hP : P.Steady) {memo : Memo} {t : Trait} (ht : w.HasTrait t)
    (hm : t.layer.memo? = some memo) (receiver : Value) {args : List Value} (hargs : w.Has args)
    (path : List Key) : (memo.fill P t receiver args path).Steady HasValue w := by
  have hlayer := ht.textual t.layer List.mem_cons_self
  have hbottom := steady_bottom hP (hlayer.memo memo hm) (ht.bottom hm) hargs
  -- Objects go away between the parts, which `bind` does not allow for, so the run is
  -- followed by hand, with one onward step from the start of the miss to its middle.
  intro w' rs ho htwin
  obtain ⟨r, w₁, rs₁, hb, hb', htwin₁, ho₁, hpost₁⟩ := hbottom w' rs ho htwin
  cases r with
  | error stop =>
    exact ⟨_, w₁, rs₁, Memo.fill_of_bottom hb path, Memo.fill_of_bottom hb' path, htwin₁, ho₁, nofun⟩
  | ok b =>
    have hset := onward_storeSet htwin₁.fit.tables memo.store path (hpost₁ b rfl)
    have hsince := (ho₁.trans hset).reclaimed htwin.fit.tables
    have htwin₂ : ((w₁.storeSet memo.store path b).reclaimed w'.nextObject).Twin rs₁ := by
      refine ⟨htwin.fit.onward hsince, ?_⟩
      rw [registries_reclaimed]
      exact htwin₁.registries.later (hset.before.trans (before_reclaimed _ _))
    obtain ⟨r, w₃, rs₃, hd, hd', htwin₃, ho₃, hpost₃⟩ :=
      steady_dispatch hP (ht.onward (ho.trans hsince)) receiver (hargs.onward (ho.trans hsince))
        _ rs₁ (.refl _) htwin₂
    have hd'' : t.dispatch P receiver args (({w₁ with registries := rs₁} : World).storeSet memo.store
        path b |>.reclaimed w'.nextObject) = (r, {w₃ with registries := rs₃}) := by
      rw [← hd', ← reclaimed_registries]
      rfl
    cases r with
    | ok v =>
      have hdone := onward_storeSet htwin₃.fit.tables memo.store path (hpost₃ v rfl)
      refine ⟨_, _, rs₃, Memo.fill_ok hb hd, Memo.fill_ok hb' hd'', htwin₃.onward hdone rfl,
        (hsince.trans ho₃).trans hdone, fun u hu => ?_⟩
      cases hu
      exact HasValue.onward (hpost₃ v rfl) hdone
    | error stop =>
      have hdone := onward_storeErase htwin₃.fit.tables memo.store path
      exact ⟨_, _, rs₃, Memo.fill_error hb hd, Memo.fill_error hb' hd'', htwin₃.onward hdone rfl,
        (hsince.trans ho₃).trans hdone, nofun⟩

theorem steady_memo (hP : P.Steady) {memo : Memo} {t : Trait} (ht : w.HasTrait t)
    (hm : t.layer.memo? = some memo) (receiver : Value) {args : List Value} (hargs : w.Has args) :
    (memo.call P t receiver args).Steady HasValue w := by
  have hpath : (Run.lift (Key.path args)).Steady (fun _ _ => True) w :=
    steady_lift fun _ _ _ _ => trivial
  refine hpath.bind fun w₁ path ho _ => steady_get (fun w₂ ho' hfit => ?_) fun _ _ => rfl
  have ht' := ht.onward (ho.trans ho')
  split
  · next hit hstored =>
    exact steady_pure fun _ ho'' => ((ht'.owns hm).stored? hfit hstored).onward ho''
  · exact steady_fill hP ht' hm receiver (hargs.onward (ho.trans ho')) path

theorem steady_call (hP : P.Steady) {t : Trait} (ht : w.HasTrait t) {args : List Value}
    (hargs : w.Has args) : (t.call P args).Steady HasValue w := by
  unfold Trait.call
  split
  · exact steady_fail _
  · refine Steady.guarded ?_ t
    split
    · next memo hm => exact steady_memo hP ht hm _ hargs
    · exact steady_dispatch hP ht _ hargs

/-! ### Requests -/

theorem steady_lazy (hP : P.Steady) (body : LazyBody) :
    (body.program.run P none).Steady HasValue w := by
  cases body with
  | expr e => exact e.steady_meaning (.ofArgs has_nil false) P hP none trivial
  | knot id =>
    have hquery : (Program.query (.knot id)).Steady (fun w r => ∀ v, r = .ok v → w.HasValue v) w :=
      Program.steady_query fun _ _ _ hfit _ ho v hv => (hfit.knotTarget hv).onward ho
    have hlift := hquery.bind fun w' r _ hr =>
      Program.steady_lift fun v hv w'' ho => (hr v hv).onward ho
    exact hlift P hP none trivial

theorem steady_construct (v : Variant) {args : List Value} (hargs : w.Has args) :
    (v.construct args).Steady HasValue w := by
  refine (steady_lift fun fields hfields w' ho => ?_).bind fun w' fields _ hfields =>
    (steady_canonicalize v.registry v.tag hfields).mono ?_
  · exact (positional_ok hfields).1 ▸ hargs.onward ho
  · rintro w'' u - ⟨id, rfl, hu⟩
    exact hu

end Run

open Run

/-- With a steady performer for the bodies, all requests are answered in step. -/
theorem Performer.Steady.answering {P : Performer} (hP : P.Steady) :
    Performer.Steady (OpenVariants.answering Trait.call P) := by
  intro w frame r hframe hr
  cases r with
  | call id args =>
    obtain ⟨⟨t, ht, hin⟩, hargs⟩ := hr
    refine steady_get (fun w' ho _ => ?_) fun _ _ => rfl
    rw [ho.traits id t ht]
    exact steady_call hP (hin.onward ho) (hargs.onward ho)
  | recur args =>
    cases frame with
    | none => exact steady_fail _
    | some f => exact steady_call hP hframe.1 hr
  | base args =>
    cases frame with
    | none => exact steady_fail _
    | some f =>
      simp only [OpenVariants.answering]
      split
      · next base hbase => exact steady_call hP (hframe.2.link (Trait.base_link hbase)) hr
      · exact steady_fail _
  | force id =>
    refine steady_get (fun w' _ _ => ?_) fun _ _ => rfl
    split
    · exact steady_lazy hP _
    · exact steady_pure fun _ _ => hasValue_of_plain rfl
  | apply id args =>
    refine steady_get (fun w' ho _ => ?_) fun _ _ => rfl
    split
    · exact steady_asFunction hP _ (Has.onward hr ho)
    · exact steady_pure fun _ _ => hasValue_of_plain rfl
  | read id index => exact steady_readAt hP id index
  | unify p v =>
    exact (steady_unify hP p v).bind fun _ _ _ _ => steady_pure fun _ _ => hasValue_of_plain rfl
  | construct v args => exact steady_construct v hr

/-- Evaluation is in step, however many nested bodies it allows for. -/
theorem steady_perform (n : Nat) : Performer.Steady (perform n) := by
  induction n with
  | zero => exact fun _ _ _ _ _ => steady_throw _
  | succ n ih => exact ih.answering

theorem steady_performAll : Performer.Steady performAll := steady_perform nestingBound

/-- A program outside of any call is in step. -/
theorem Program.Steady.exec {p : Program α} {post : World → α → Prop} {w : World}
    (h : p.Steady post w) : Run.Steady p.exec post w :=
  h performAll steady_performAll none trivial

end OpenVariants

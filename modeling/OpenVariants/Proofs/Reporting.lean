import OpenVariants.Proofs.Limits

/-! Bodies that report.

A body reports unresolved fields if it passes them on, and of which instances there are if it
makes no others. Where all traits do so and there are such instances alone, all that is going on
at any moment of a run does (`Moment.Reports.after`): what waits then reads a field of such an
instance, or passes unresolved fields on (`Pending.Reports`). -/
namespace OpenVariants

/-- The fault of a field that has no value to give. -/
abbrev Fault.unresolved (site? : Option FieldSite) (trouble : KnotTrouble) : Fault :=
  .construction (.unresolvedField site? trouble)

def Fault.IsUnresolved (f : Fault) : Prop := ∃ site? trouble, f = .unresolved site? trouble

/-! ### Bodies -/

/-- Bodies of cases and of bottoms that make such instances alone, and pass unresolved fields on. -/
structure Layer.Reports (insts : Tag → List Value → Prop) (l : Layer) : Prop where
  cases : ∀ c ∈ l.cases, c.2.KeepsTo insts Fault.IsUnresolved
  memo : ∀ memo, l.memo? = some memo → memo.bottom.KeepsTo insts Fault.IsUnresolved

def Trait.Reports (insts : Tag → List Value → Prop) (t : Trait) : Prop :=
  ∀ l ∈ t.chain, l.Reports insts

/-- The call that a body runs in, if it does in one. -/
def Frame.Reports (insts : Tag → List Value → Prop) (frame : Option Frame) : Prop :=
  ∀ f, frame = some f → f.invoked.Reports insts ∧ f.owner.Reports insts

/-- A body that makes such instances alone, and passes unresolved fields on. -/
abbrev Program.Reports (insts : Tag → List Value → Prop) (p : Program Value) : Prop :=
  p.KeepsTo insts (FieldSite.Of insts) Fault.IsUnresolved

/-- There are such instances alone, names stand for data that makes no others, and all traits
report. -/
structure World.Reports (insts : Tag → List Value → Prop) (w : World) : Prop where
  instances : ∀ id tag values,
    w.heap.object? id = some (.content (.fields tag values)) → insts tag values
  data : ∀ name d, w.binding? name = some (.data d) → d.Makes insts
  traits : ∀ t ∈ w.traits, t.Reports insts

section
variable {insts : Tag → List Value → Prop}

theorem Trait.Reports.link {t u : Trait} (ht : t.Reports insts) (hlink : t.Link u) :
    u.Reports insts := fun l hl => ht l (hlink.subset hl)

theorem Frame.reports_none : Frame.Reports insts none := fun _ h => by cases h

namespace World.Reports
variable {w : World}

theorem tells (hw : w.Reports insts) (frame : Option Frame) (q : Query) :
    q.Tells insts (w.answer frame q) := by
  cases q with
  | content v =>
    intro tag values hcontent
    change w.heap.content? v = some (.fields tag values) at hcontent
    unfold Heap.content? at hcontent
    split at hcontent
    · next c hobject =>
      cases hcontent
      obtain ⟨id, -, ho⟩ := Option.bind_eq_some_iff.mp hobject
      exact hw.instances id tag values ho
    · cases hcontent
  | binding name => exact fun d hd => hw.data name d hd
  | _ => trivial

theorem push (hw : w.Reports insts) {o : Object}
    (ho : ∀ tag values, o = .content (.fields tag values) → insts tag values) :
    (w.push o).Reports insts := by
  refine ⟨fun id tag values h => ?_, hw.data, hw.traits⟩
  rw [World.push, Heap.object?_push] at h
  split at h
  · cases h
    exact ho tag values rfl
  · exact hw.instances id tag values h

theorem constructed (hw : w.Reports insts) {r : Request} (hr : r.Makes insts) :
    (Moment.constructed w r).Reports insts := by
  cases r with
  | construct v args =>
    simp only [Moment.constructed, Variant.construct, Run.bind_apply, Run.lift_apply]
    cases hargs : v.positional args with
    | error f => exact hw
    | ok fields =>
      obtain ⟨rfl, hlength⟩ := positional_ok hargs
      change ((w.canonicalize v.registry v.tag fields).2).Reports insts
      obtain ⟨registries, h | h⟩ := World.canonicalize_frame w v.registry v.tag fields <;> rw [h]
      · exact ⟨hw.instances, hw.data, hw.traits⟩
      · have hpush : (w.push (.content (.fields v.tag fields))).Reports insts := by
          refine hw.push fun tag values ho => ?_
          cases ho
          exact hr fields hlength
        exact ⟨hpush.instances, hpush.data, hpush.traits⟩
  | _ => exact hw

theorem reclaimed (hw : w.Reports insts) (since : ObjectId) :
    (w.reclaimed since).Reports insts := by
  refine ⟨fun id tag values h => ?_, fun name d hd => hw.data name d ?_, ?_⟩
  · rw [World.object?_reclaimed] at h
    split at h
    · exact hw.instances id tag values h
    · cases h
  · have hbindings : (w.reclaimed since).bindings = w.bindings := by
      unfold World.reclaimed
      split <;> rfl
    unfold World.binding? at hd ⊢
    rwa [hbindings] at hd
  · rw [World.traits_reclaimed]
    exact hw.traits

end World.Reports

end

/-! ### Moments -/

/-- What is evaluated reports. -/
inductive Control.Reports (insts : Tag → List Value → Prop) : Control → Prop
  | run {n : Nat} {frame : Option Frame} {p : Program Value} (hframe : Frame.Reports insts frame)
    (hp : p.Reports insts) : Reports insts (.run n frame p)
  | request {n : Nat} {frame : Option Frame} {r : Request} (hframe : Frame.Reports insts frame)
    (hr : r.Makes insts) : Reports insts (.request n frame r)
  | call {n : Nat} {t : Trait} {args : List Value} (ht : t.Reports insts) :
    Reports insts (.call n t args)
  | lookUp {n : Nat} {memo : Memo} {t : Trait} {receiver : Value} {args : List Value}
    (ht : t.Reports insts) (hbottom : memo.bottom.KeepsTo insts Fault.IsUnresolved) :
    Reports insts (.lookUp n memo t receiver args)
  | dispatch {n : Nat} {t : Trait} {receiver : Value} {args : List Value} (ht : t.Reports insts) :
    Reports insts (.dispatch n t receiver args)
  | answer {result : Except Stop Value} : Reports insts (.answer result)

/-- What waits reports: it reads a field, or passes unresolved fields on. -/
inductive Pending.Reports (insts : Tag → List Value → Prop) : Pending → Prop
  | body {n : Nat} {frame : Option Frame} {next : Except Fault Value → Program Value}
    (hframe : Frame.Reports insts frame) (hnext : ∀ result, (next result).Reports insts)
    (hpasses : ∀ f : Fault, f.IsUnresolved → (next (.error f)).Raises f) :
    Reports insts (.body n frame next)
  | read {n : Nat} {frame : Option Frame} {site : FieldSite} {rest : Value → Program Value}
    (hframe : Frame.Reports insts frame) (hsite : site.Of insts)
    (hrest : ∀ v, (rest v).Reports insts) :
    Reports insts (.body n frame fun result => Program.afterForce site result >>= rest)
  | call {t : Trait} {args : List Value} {segment : Bool} : Reports insts (.call t args segment)
  | bottom {n : Nat} {memo : Memo} {t : Trait} {receiver : Value} {args : List Value}
    {path : List Key} {since : ObjectId} (ht : t.Reports insts) :
    Reports insts (.bottom n memo t receiver args path since)
  | case {memo : Memo} {path : List Key} : Reports insts (.case memo path)

namespace Moment

/-- All that is going on reports. -/
structure Reports (insts : Tag → List Value → Prop) (m : Moment) : Prop where
  control : m.control.Reports insts
  stack : ∀ p ∈ m.stack, p.Reports insts
  world : m.world.Reports insts

section Steps
variable {insts : Tag → List Value → Prop} {stack : List Pending} {w : World}

theorem reports_stepped {n : Nat} {frame : Option Frame} {p : Program Value}
    (hframe : Frame.Reports insts frame) (hp : p.Reports insts)
    (hstack : ∀ p ∈ stack, p.Reports insts) (hw : w.Reports insts) :
    (stepped n frame stack w p).Reports insts := by
  cases hp with
  | done result => exact ⟨.answer, hstack, hw⟩
  | ask h => exact ⟨.run hframe (h _ (hw.tells frame _)), hstack, hw⟩
  | make hcontent h =>
    refine ⟨.run hframe (h _), hstack, hw.push fun tag values ho => ?_⟩
    cases ho
    exact hcontent tag values rfl
  | makeFunction h | makeLazy h =>
    exact ⟨.run hframe (h _), hstack, hw.push fun _ _ ho => by cases ho⟩
  | log h => exact ⟨.run hframe h, hstack, hw.instances, hw.data, hw.traits⟩
  | request hr h hfinal =>
    exact ⟨.request hframe hr, List.forall_mem_cons.mpr ⟨.body hframe h hfinal, hstack⟩, hw⟩
  | read hsite h =>
    exact ⟨.request hframe trivial, List.forall_mem_cons.mpr ⟨.read hframe hsite h, hstack⟩, hw⟩

theorem reports_requested {n : Nat} {frame : Option Frame} {r : Request}
    (hframe : Frame.Reports insts frame) (hw : w.Reports insts) :
    (requested n frame w r).Reports insts := by
  cases r with
  | call id args =>
    simp only [requested]
    split
    · next t ht => exact .call (hw.traits t (Array.mem_of_getElem? ht))
    · exact .answer
  | recur args =>
    cases frame with
    | none => exact .answer
    | some f => exact .call (hframe f rfl).1
  | base args =>
    cases frame with
    | none => exact .answer
    | some f =>
      simp only [requested]
      split
      · next base hbase => exact .call ((hframe f rfl).2.link (Trait.base_link hbase))
      · exact .answer
  | force id =>
    simp only [requested]
    split
    · exact .run Frame.reports_none (LazyBody.keepsTo_program _)
    · exact .answer
  | apply id args =>
    simp only [requested]
    split
    · exact .run Frame.reports_none (Expr.keepsTo_meaning _ _)
    · exact .answer
  | read id index => exact .run Frame.reports_none (Program.closed_keepsTo.fieldAt id index)
  | unify p v =>
    exact .run Frame.reports_none ((Program.closed_keepsTo.matching p v).bind fun _ => .done _)
  | construct v args => exact .answer

theorem reports_called {n : Nat} {t : Trait} {args : List Value} (ht : t.Reports insts)
    (hstack : ∀ p ∈ stack, p.Reports insts) (hw : w.Reports insts) :
    (called n t args stack w).Reports insts := by
  cases args with
  | nil => exact ⟨.answer, hstack, hw⟩
  | cons receiver rest =>
    simp only [called]
    split
    · exact ⟨.answer, hstack, hw⟩
    · refine ⟨?_, List.forall_mem_cons.mpr ⟨.call, hstack⟩, hw.instances, hw.data, hw.traits⟩
      unfold body
      split
      · next memo hmemo => exact .lookUp ht ((ht t.layer List.mem_cons_self).memo memo hmemo)
      · exact .dispatch ht

theorem reports_lookedUp {n : Nat} {memo : Memo} {t : Trait} {receiver : Value} {args : List Value}
    (ht : t.Reports insts) (hbottom : memo.bottom.KeepsTo insts Fault.IsUnresolved)
    (hstack : ∀ p ∈ stack, p.Reports insts) (hw : w.Reports insts) :
    (lookedUp n memo t receiver args stack w).Reports insts := by
  simp only [lookedUp]
  split
  · exact ⟨.answer, hstack, hw⟩
  · split
    · exact ⟨.answer, hstack, hw⟩
    · refine ⟨?_, List.forall_mem_cons.mpr ⟨.bottom ht, hstack⟩, hw⟩
      cases hb : memo.bottom with
      | value v => exact .answer
      | compute body =>
        rw [hb] at hbottom
        exact .run Frame.reports_none (hbottom args)

theorem reports_dispatched {n : Nat} {t : Trait} {receiver : Value} {args : List Value}
    (ht : t.Reports insts) : (dispatched n t receiver args w).Reports insts := by
  unfold dispatched
  split
  · next found hfound =>
    have howner := ht.link (resolve_link hfound)
    have hcase := (howner found.owner.layer List.mem_cons_self).cases _ (resolve_mem hfound)
    refine .run (fun f hf => ?_) (hcase.program _ _ args)
    cases hf
    exact ⟨ht, howner⟩
  · exact .answer

theorem reports_resumed {result : Except Stop Value} {p : Pending} (hp : p.Reports insts)
    (hstack : ∀ p ∈ stack, p.Reports insts) (hw : w.Reports insts) :
    (resumed result stack w p).Reports insts := by
  cases hp with
  | body hframe hnext hpasses =>
    rcases result with (_ | f) | v
    · exact ⟨.run hframe (hnext _), hstack, hw⟩
    · exact ⟨.answer, hstack, hw⟩
    · exact ⟨.run hframe (hnext _), hstack, hw⟩
  | read hframe hsite hrest =>
    rcases result with (_ | f) | v
    · exact ⟨.run hframe (.done _), hstack, hw⟩
    · exact ⟨.answer, hstack, hw⟩
    · exact ⟨.run hframe (hrest v), hstack, hw⟩
  | call => exact ⟨.answer, hstack, hw.instances, hw.data, hw.traits⟩
  | @bottom n memo t receiver args path since ht =>
    cases result with
    | error stop => exact ⟨.answer, hstack, hw⟩
    | ok b =>
      have hset : (w.storeSet memo.store path b).Reports insts :=
        ⟨hw.instances, hw.data, hw.traits⟩
      exact ⟨.dispatch ht, List.forall_mem_cons.mpr ⟨.case, hstack⟩, hset.reclaimed since⟩
  | case =>
    cases result with
    | error stop => exact ⟨.answer, hstack, hw.instances, hw.data, hw.traits⟩
    | ok v => exact ⟨.answer, hstack, hw.instances, hw.data, hw.traits⟩

end Steps

theorem Reports.next {insts : Tag → List Value → Prop} {m : Moment} (hm : m.Reports insts) :
    m.next.Reports insts := by
  obtain ⟨c, stack, w⟩ := m
  obtain ⟨hcontrol, hstack, hw⟩ := hm
  dsimp only at hcontrol hstack hw
  cases hcontrol with
  | run hframe hp => exact reports_stepped hframe hp hstack hw
  | @request n frame r hframe hr =>
    cases n with
    | zero => exact ⟨.answer, hstack, hw⟩
    | succ n => exact ⟨reports_requested hframe hw, hstack, hw.constructed hr⟩
  | call ht => exact reports_called ht hstack hw
  | lookUp ht hbottom => exact reports_lookedUp ht hbottom hstack hw
  | dispatch ht => exact ⟨reports_dispatched ht, hstack, hw⟩
  | answer =>
    cases stack with
    | nil => exact ⟨.answer, hstack, hw⟩
    | cons p stack =>
      obtain ⟨hp, hrest⟩ := List.forall_mem_cons.mp hstack
      exact reports_resumed hp hrest hw

theorem Reports.after {insts : Tag → List Value → Prop} {m : Moment} (hm : m.Reports insts)
    (k : Nat) :
    (m.after k).Reports insts := after_of_next (P := Reports insts) (fun _ => Reports.next) hm k

end Moment

end OpenVariants

import OpenVariants.Proofs.Commands
import OpenVariants.Proofs.Settled

/-! Sweeps show nothing.

Two sessions that differ in purge intervals and in the sweeps that are asked for give the
same replies, step by step, but for the intervals that are shown and what a sweep itself
replies (`Session.sweeps_unobservable`). A sweep is asked for between steps, or comes in
the midst of a call, with the construction that completes an interval. Between steps the
worlds differ in registries alone, and these are twins. -/
namespace OpenVariants

/-! ### What is compared -/

/-- A command with the purge interval in it left out. -/
def Command.unpaced : Command → Command
  | .registry c => .registry {c with purgeInterval := 0}
  | c => c

def Step.unpaced (s : Step) : Step := {s with command := s.command.unpaced}

/-- A reply with the purge interval in it left out. -/
def Reply.unpaced : Reply → Reply
  | .limits c => .limits {c with purgeInterval := 0}
  | .registry info =>
    .registry {info with config := {info.config with purgeInterval := 0}, text := ""}
  | r => r

/-- Whether a step asks for a sweep. -/
def Step.isSweep (s : Step) : Bool :=
  match s.command with
  | .purge _ => true
  | _ => false

theorem Command.isSteady_unpaced (c : Command) : c.unpaced.isSteady = c.isSteady := by
  cases c <;> rfl

theorem Command.unpaced_of_steady {c : Command} (hc : c.isSteady = true) : c.unpaced = c := by
  cases c with
  | registry => cases hc
  | _ => rfl

namespace Session

def StepResult.unpaced (r : StepResult) : StepResult := {r with outcome := r.outcome.map Reply.unpaced}

/-- The results of the steps that do not ask for sweeps, with purge intervals left out. -/
def observed (steps : List Step) (results : List StepResult) : List StepResult :=
  ((steps.zip results).filter (!·.1.isSweep)).map (·.2.unpaced)

end Session

/-! ### Worlds that change their names -/

namespace World
variable {w : World} {rs : Array Registry}

theorem Tables.renamed (ht : w.Tables) (bindings : List (String × Binding)) :
    ({w with bindings} : World).Tables :=
  ⟨ht.heap, ht.knots, ht.distinct, ht.stored, ht.traits⟩

/-- What is in hand is so whatever names stand for it. -/
theorem HasBinding.renamed {b : Binding} (hb : w.HasBinding b) (bindings : List (String × Binding)) :
    ({w with bindings} : World).HasBinding b := by
  have htrait : ∀ id, w.HasTraitId id → ({w with bindings} : World).HasTraitId id :=
    fun _ ⟨t, ht, hin⟩ => ⟨t, ht, hin.values, hin.stores, hin.textual⟩
  have hfacade : ∀ f, w.HasFacade f → ({w with bindings} : World).HasFacade f :=
    fun _ hf => ⟨hf.values, fun p hp => htrait p.2 (hf.traits p hp)⟩
  cases b with
  | registry | knot => trivial
  | data | value | pattern | store | weak => exact hb
  | rules id =>
    obtain ⟨r, hr, hin⟩ := hb
    exact ⟨r, hr, hin.values, hin.textual⟩
  | trait id => exact htrait id hb
  | facade f => exact hfacade f hb
  | view v => exact ⟨hb.1, hfacade _ hb.2⟩
  | method m => exact ⟨hb.1, htrait _ hb.2⟩

/-- A name stands for something in hand from now on. -/
theorem Fit.bind (h : w.Fit) (name : String) {b : Binding} (hb : w.HasBinding b) :
    (w.bind name b).Fit := by
  refine ⟨h.tables.renamed _, fun p hp => HasBinding.renamed ?_ _⟩
  rcases List.mem_cons.mp hp with rfl | hp
  · exact hb
  · exact h.bindings p (List.mem_filter.mp hp).1

theorem Fit.unbind (h : w.Fit) (name : String) : (w.unbind name).Fit :=
  ⟨h.tables.renamed _, fun p hp => (h.bindings p (List.mem_filter.mp hp).1).renamed _⟩

theorem Twin.bind (ht : w.Twin rs) (name : String) {b : Binding} (hb : w.HasBinding b) :
    (w.bind name b).Twin rs := ⟨ht.fit.bind name hb, ht.registries⟩

theorem Twin.unbind (ht : w.Twin rs) (name : String) : (w.unbind name).Twin rs :=
  ⟨ht.fit.unbind name, ht.registries⟩

theorem Twin.unlogged (ht : w.Twin rs) : ({w with log := []} : World).Twin rs :=
  ht.onward (onward_of_eq rfl rfl rfl rfl rfl rfl) rfl

theorem Twin.settled (ht : w.Twin rs) : w.settled.Twin rs :=
  ⟨ht.fit.settled, ht.registries.later (before_settled ht.fit)⟩

/-- Twins stay twins when either side gets a registry with the same limit on calls. -/
theorem Twins.push {h : Heap} {rs rs' : Array Registry} (ht : Twins h rs rs') {limits limits' : Config}
    (hdepth : limits.maxDepth = limits'.maxDepth) :
    Twins h (rs.push {config := limits}) (rs'.push {config := limits'}) := by
  have hempty : ∀ limits : Config, Registry.Fit h {config := limits} := fun _ =>
    ⟨rfl, trivial, fun _ _ hs => by simp at hs, fun _ _ hs => by simp at hs⟩
  refine ⟨by simp [ht.size], fun i a b ha hb => ?_⟩
  rw [Array.getElem?_push] at ha hb
  rw [ht.size] at ha
  split at ha
  · next hi =>
    rw [if_pos hi] at hb
    cases ha
    cases hb
    exact ⟨hempty limits, hempty limits', hdepth, rfl, rfl, fun _ _ => Iff.rfl⟩
  · next hi =>
    rw [if_neg hi] at hb
    exact ht.twin i a b ha hb

end World

namespace Session
open World Run

/-! ### Commands -/

section
variable {w : World} {rs : Array Registry}

theorem lookUp_apply (role name : String) (select : Binding → Option α) (w : World) :
    OpenVariants.lookUp role name select w =
      match (w.binding? name).bind select with
      | some a => (.ok a, w)
      | none => (.error (.fault (.program (.noEntry role name))), w) := by
  have hrun : OpenVariants.lookUp role name select w =
      ((match (w.binding? name).bind select with
        | some a => pure a
        | none => Program.fail (.program (.noEntry role name)) : Program α)).run performAll none w := rfl
  rw [hrun]
  cases (w.binding? name).bind select <;> rfl

/-- The ends of two commands match: they show the same but for purge intervals, make the
same, and leave worlds that only sweeps tell apart. -/
structure Match (out out' : Except Stop (Reply × Option Binding) × World) : Prop where
  reply : out.1.map (fun made => (made.1.unpaced, made.2)) =
    out'.1.map fun made => (made.1.unpaced, made.2)
  world : out'.2 = {out.2 with registries := out'.2.registries}
  twin : out.2.Twin out'.2.registries
  made : ∀ made, out.1 = .ok made → out.2.HasMade made

theorem match_steady {quiet : Bool} {c : Command} (hc : c.isSteady = true) (ht : w.Twin rs) :
    Match (execute quiet c w) (execute quiet c {w with registries := rs}) := by
  obtain ⟨r, w₁, rs₁, hrun, hrun', ht₁, _, hmade⟩ := steady_execute quiet c hc w rs (.refl w) ht
  rw [hrun, hrun']
  exact ⟨rfl, rfl, ht₁, hmade⟩

theorem match_registry (quiet : Bool) {limits limits' : Config}
    (hdepth : limits.maxDepth = limits'.maxDepth) (ht : w.Twin rs) :
    Match (execute quiet (.registry limits) w)
      (execute quiet (.registry limits') {w with registries := rs}) := by
  have ho : w.Onward (w.addRegistry limits).2 := onward_of_eq rfl rfl rfl rfl rfl rfl
  have hrun : ∀ limits w, execute quiet (.registry limits) w =
      (.ok (.limits limits, some (.registry w.registries.size)), (w.addRegistry limits).2) :=
    fun _ _ => rfl
  rw [hrun, hrun]
  refine ⟨?_, rfl, ⟨ht.fit.onward ho, ht.registries.push hdepth⟩, ?_⟩
  · simp only [Except.map, Reply.unpaced, hdepth, ht.registries.size]
  · rintro made ⟨⟩ b hb
    cases hb
    trivial

/-- What is done with a registry that a name stands for. -/
theorem withRegistry_apply (name : String) (f : RegistryId → World → Registry → Run α) (w : World) :
    (do
      let id ← registryNamed name
      let w ← get
      let r ← entry w.registries id "registry"
      f id w r : Run α) w =
      match (w.binding? name).bind Binding.registry? with
      | some id =>
        match w.registries[id]? with
        | some r => f id w r w
        | none => (.error (.fault (.program (.noEntry "registry" s!"{id}"))), w)
      | none => (.error (.fault (.program (.noEntry "registry" name))), w) := by
  rw [bind_apply, registryNamed, lookUp_apply]
  cases (w.binding? name).bind Binding.registry? with
  | none => rfl
  | some id =>
    dsimp only
    rw [bind_apply, get_apply]
    dsimp only
    rw [bind_apply, entry]
    cases w.registries[id]? <;> rfl

theorem match_registryInfo (quiet : Bool) (name : String) (ht : w.Twin rs) :
    Match (execute quiet (.registryInfo name) w)
      (execute quiet (.registryInfo name) {w with registries := rs}) := by
  have hrun : ∀ w : World, execute quiet (.registryInfo name) w = _ :=
    withRegistry_apply name fun _ w r => only (.registry (registryInfo w r))
  rw [hrun, hrun]
  have hname : ({w with registries := rs} : World).binding? name = w.binding? name := rfl
  rw [hname]
  cases (w.binding? name).bind Binding.registry? with
  | none => exact ⟨rfl, rfl, ht, nofun⟩
  | some id =>
    rcases ht.registries.cases id with ⟨ha, hb⟩ | ⟨a, b, ha, hb, htwin⟩
    · simp only [ha, hb]
      exact ⟨rfl, rfl, ht, nofun⟩
    · simp only [ha, hb]
      refine ⟨?_, rfl, ht, ?_⟩
      · have hshown : (Reply.registry (registryInfo w a)).unpaced =
            (Reply.registry (registryInfo {w with registries := rs} b)).unpaced := by
          simp only [Reply.unpaced, registryInfo, liveInstances, htwin.count_eq, htwin.maxDepth]
        exact congrArg (fun r => Except.ok (r, none)) hshown
      · rintro made ⟨⟩ _ hb
        cases hb

theorem match_drop (quiet : Bool) (name : String) (ht : w.Twin rs) :
    Match (execute quiet (.drop name) w) (execute quiet (.drop name) {w with registries := rs}) := by
  have hrun : ∀ w : World, execute quiet (.drop name) w =
      (.ok (.flag (w.binding? name).isSome, none), w.unbind name) := fun _ => rfl
  rw [hrun, hrun]
  refine ⟨rfl, rfl, ht.unbind name, ?_⟩
  rintro made ⟨⟩ _ hb
  cases hb

/-- Commands match if they are the same but for purge intervals and ask for no sweep. -/
theorem match_execute (quiet : Bool) {c c' : Command} (hcc : c.unpaced = c'.unpaced)
    (hc : ∀ name, c ≠ .purge name) (ht : w.Twin rs) :
    Match (execute quiet c w) (execute quiet c' {w with registries := rs}) := by
  by_cases hsteady : c.isSteady = true
  · have hsteady' : c'.isSteady = true := by
      rw [← c'.isSteady_unpaced, ← hcc, c.isSteady_unpaced, hsteady]
    have hsame : c = c' := by
      rw [← Command.unpaced_of_steady hsteady, hcc, Command.unpaced_of_steady hsteady']
    exact hsame ▸ match_steady hsteady ht
  · cases c with
    | purge name => exact absurd rfl (hc name)
    | registry limits =>
      cases c' with
      | registry limits' =>
        have hlimits : ({limits with purgeInterval := 0} : Config) = {limits' with purgeInterval := 0} :=
          Command.registry.inj hcc
        exact match_registry quiet (Config.mk.inj hlimits).1 ht
      | _ => cases hcc
    | registryInfo name =>
      cases c' <;> cases hcc
      exact match_registryInfo quiet name ht
    | drop name =>
      cases c' <;> cases hcc
      exact match_drop quiet name ht
    | _ => exact absurd rfl hsteady

/-- A command that asks for a sweep at most sweeps. -/
theorem execute_purge (quiet : Bool) (name : String) (w : World) :
    ∃ r rs, execute quiet (.purge name) w = (r, {w with registries := rs}) ∧
      Sweeps w.heap w.registries rs ∧ ∀ made, r = .ok made → made.2 = none := by
  have hrun := withRegistry_apply name (fun id w r => do
    set (w.sweep id)
    only (.count (r.canonical.released w.heap))) w
  have hbody : execute quiet (.purge name) w = _ := hrun
  rw [hbody]
  cases (w.binding? name).bind Binding.registry? with
  | none => exact ⟨_, w.registries, rfl, .refl _ _, nofun⟩
  | some id =>
    dsimp only
    cases w.registries[id]? with
    | none => exact ⟨_, w.registries, rfl, .refl _ _, nofun⟩
    | some r =>
      refine ⟨_, (w.sweep id).registries, rfl, sweep_sweeps w id, ?_⟩
      rintro made ⟨⟩
      rfl

end

/-! ### Steps -/

/-- Worlds between steps that only sweeps tell apart, but for what the log was. -/
structure AtRest (w w' : World) : Prop where
  settled : w.settled = w
  eq : w' = {w with registries := w'.registries, log := w'.log}
  twin : w.Twin w'.registries

/-- The world after a command, with its name for what it made. -/
def named (s : Step) (made : Option Binding) (w : World) : World :=
  match s.as?, made with
  | some name, some b => w.bind name b
  | _, _ => w

theorem named_none (s : Step) (w : World) : named s none w = w := by
  unfold named
  cases s.as? <;> rfl

theorem named_registries (s : Step) (made : Option Binding) (w : World) (rs : Array Registry) :
    named s made {w with registries := rs} = {named s made w with registries := rs} := by
  unfold named
  cases s.as? <;> cases made <;> rfl

theorem named_log (s : Step) (made : Option Binding) (w : World) : (named s made w).log = w.log := by
  unfold named
  cases s.as? <;> cases made <;> rfl

theorem Twin.named {w : World} {rs : Array Registry} (ht : w.Twin rs) (s : Step)
    {made : Option Binding} (hmade : ∀ b, made = some b → w.HasBinding b) :
    (Session.named s made w).Twin rs := by
  unfold Session.named
  split
  · next name b _ => exact ht.bind name (hmade b rfl)
  · exact ht

theorem step_eq (s : Step) (w : World) :
    step s w =
      match execute s.quiet s.command {w with log := []} with
      | (.ok (reply, made), w) => (⟨.ok reply, w.log.reverse⟩, (named s made w).settled)
      | (.error stop, w) => (⟨.error stop, w.log.reverse⟩, w.settled) := by
  unfold step
  rcases execute s.quiet s.command {w with log := []} with ⟨_ | ⟨reply, made⟩, w₁⟩
  · rfl
  · simp only [← named_log s made w₁]
    rfl

/-- A step that asks for a sweep leaves a world that only the sweep tells apart. -/
theorem AtRest.sweep {w w' : World} (h : AtRest w w') {s : Step} (hs : s.isSweep = true) :
    AtRest (step s w).2 w' := by
  have hpurge : ∃ name, s.command = .purge name := by
    unfold Step.isSweep at hs
    split at hs
    · next name hname => exact ⟨name, hname⟩
    · cases hs
  obtain ⟨name, hname⟩ := hpurge
  obtain ⟨r, rs, hrun, hsweeps, hmade⟩ := execute_purge s.quiet name {w with log := []}
  have hheap : w.heap.collect w.roots = w.heap := congrArg World.heap h.settled
  have hsettled : ({w with registries := rs, log := []} : World).settled =
      {w with registries := rs, log := []} :=
    congrArg (fun heap => {w with registries := rs, log := [], heap}) hheap
  have hstep : (step s w).2 = {w with registries := rs, log := []} := by
    rw [step_eq, hname, hrun]
    cases r with
    | error => exact hsettled
    | ok made =>
      obtain ⟨reply, made⟩ := made
      cases hmade _ rfl
      simp only [named_none]
      exact hsettled
  rw [hstep]
  refine ⟨hsettled, h.eq, ?_⟩
  have ho : w.Onward {w with registries := rs, log := []} := onward_of_eq rfl rfl rfl rfl rfl rfl
  exact ⟨h.twin.fit.onward ho, h.twin.registries.swept hsweeps (.refl _ _)⟩

/-- A step taken from two such worlds shows the same and leaves two such worlds. -/
theorem AtRest.step {w w' : World} (h : AtRest w w') {s s' : Step} (hss : s.unpaced = s'.unpaced)
    (hs : s.isSweep = false) :
    (step s w).1.unpaced = (step s' w').1.unpaced ∧ AtRest (step s w).2 (step s' w').2 := by
  obtain ⟨hcommand, has, hquiet⟩ := Step.mk.inj hss
  have hnone : ∀ name, s.command ≠ .purge name := by
    intro name hname
    rw [Step.isSweep, hname] at hs
    cases hs
  have hmatch := match_execute s.quiet hcommand hnone h.twin.unlogged
  have hworld : ({w' with log := []} : World) =
      {({w with log := []} : World) with registries := w'.registries} := by
    rw [h.eq]
  rw [step_eq, step_eq, hworld, ← hquiet]
  obtain ⟨hreply, hworld₁, ht₁, hmade⟩ := hmatch
  generalize execute s.quiet s.command {w with log := []} = out at *
  generalize execute s.quiet s'.command _ = out' at *
  obtain ⟨r, w₁⟩ := out
  obtain ⟨r', w₁'⟩ := out'
  obtain ⟨rs, rfl⟩ : ∃ rs, w₁' = {w₁ with registries := rs} := ⟨_, hworld₁⟩
  have hrest : ∀ {w : World}, w.Twin rs → AtRest w.settled {w.settled with registries := rs} :=
    fun ht => ⟨ht.fit.settled_settled, rfl, ht.settled⟩
  cases r with
  | error stop =>
    cases r' with
    | error stop' =>
      cases Except.error.inj hreply
      exact ⟨rfl, hrest ht₁⟩
    | ok => cases hreply
  | ok made =>
    cases r' with
    | error => cases hreply
    | ok made' =>
      obtain ⟨reply, made⟩ := made
      obtain ⟨reply', made'⟩ := made'
      obtain ⟨hshown, hsame⟩ := Prod.mk.inj (Except.ok.inj hreply)
      dsimp only at hshown hsame
      subst hsame
      have hnamed : named s' made {w₁ with registries := rs} =
          {named s made w₁ with registries := rs} := by
        rw [named_registries]
        unfold named
        rw [has]
      refine ⟨?_, ?_⟩
      · simp only [StepResult.unpaced, Except.map, hshown]
      · simp only [hnamed]
        exact hrest (Twin.named ht₁ s (hmade _ rfl))

/-! ### Sessions -/

theorem atRest_start {limits limits' : Config} (hdepth : limits.maxDepth = limits'.maxDepth) :
    AtRest (start limits) (start limits') := by
  have htwin : ({} : World).Twin #[] := by
    refine ⟨⟨⟨?_, ?_, ?_, ?_, ?_⟩, nofun⟩, rfl, ?_⟩
    all_goals simp [Heap.Sound, Heap.object?]
  have ho : ({} : World).Onward (World.addRegistry limits {}).2 := onward_of_eq rfl rfl rfl rfl rfl rfl
  have hadded : (World.addRegistry limits {}).2.Twin #[{config := limits'}] :=
    ⟨htwin.fit.onward ho, htwin.registries.push hdepth⟩
  exact ⟨rfl, rfl, hadded.bind firstRegistry (b := .registry 0) trivial⟩

/-- Without the steps that ask for sweeps a session shows the same. -/
theorem observed_runFrom {w w' : World} (h : AtRest w w') (steps : List Step) :
    observed steps (runFrom steps w) =
      (runFrom (steps.filter (!·.isSweep)) w').map StepResult.unpaced := by
  induction steps generalizing w w' with
  | nil => rfl
  | cons s rest ih =>
    cases hs : s.isSweep with
    | true =>
      have hrest := ih (h.sweep hs)
      simp only [observed, runFrom, List.zip_cons_cons, List.filter_cons, hs, Bool.not_true,
        Bool.false_eq_true, if_false] at hrest ⊢
      exact hrest
    | false =>
      obtain ⟨hshown, hnext⟩ := h.step (s := s) rfl hs
      have hrest := ih hnext
      simp only [observed, runFrom, List.zip_cons_cons, List.filter_cons, hs, Bool.not_false,
        if_true, List.map_cons] at hrest ⊢
      rw [hshown, hrest]

/-- Steps that are the same but for purge intervals show the same. -/
theorem runFrom_unpaced {w w' : World} (h : AtRest w w') {steps steps' : List Step}
    (hsteps : steps.map Step.unpaced = steps'.map Step.unpaced)
    (hnone : ∀ s ∈ steps, s.isSweep = false) :
    (runFrom steps w).map StepResult.unpaced = (runFrom steps' w').map StepResult.unpaced := by
  induction steps generalizing w w' steps' with
  | nil =>
    cases steps' with
    | nil => rfl
    | cons => cases hsteps
  | cons s rest ih =>
    cases steps' with
    | nil => cases hsteps
    | cons s' rest' =>
      obtain ⟨hs, hrest⟩ := List.cons.inj hsteps
      obtain ⟨hshown, hnext⟩ := h.step hs (hnone s List.mem_cons_self)
      simp only [runFrom, List.map_cons]
      rw [hshown, ih hnext hrest fun u hu => hnone u (List.mem_cons_of_mem _ hu)]

/-- Sessions with the same limit on calls and the same steps, but for purge intervals and
steps that ask for sweeps, show the same. -/
theorem sweeps_unobservable {limits limits' : Config} (hdepth : limits.maxDepth = limits'.maxDepth)
    {steps steps' : List Step}
    (hsteps : (steps.filter (!·.isSweep)).map Step.unpaced =
      (steps'.filter (!·.isSweep)).map Step.unpaced) :
    observed steps (run limits steps) = observed steps' (run limits' steps') := by
  have hnone : ∀ s ∈ steps.filter (!·.isSweep), s.isSweep = false := fun s hs => by
    simpa using (List.mem_filter.mp hs).2
  calc observed steps (run limits steps)
      = (runFrom (steps.filter (!·.isSweep)) (start limits)).map StepResult.unpaced :=
        observed_runFrom (atRest_start rfl) steps
    _ = (runFrom (steps'.filter (!·.isSweep)) (start limits')).map StepResult.unpaced :=
        runFrom_unpaced (atRest_start hdepth) hsteps hnone
    _ = observed steps' (run limits' steps') := (observed_runFrom (atRest_start rfl) steps').symm

/-- A number is made, let go of, and asked for. -/
def letGo : List Step :=
  [{command := .declare "R" "Nat" none [⟨"Zero", []⟩, ⟨"Succ", ["pred"]⟩], as? := some "Nat"},
    {command := .eval (.new "Nat" "Succ" [.unit "Nat" "Zero"]), as? := some "one"},
    {command := .weaken (.named "one"), as? := some "handle"},
    {command := .drop "one"},
    {command := .upgrade "handle"},
    {command := .live "R"}]

/-- The same, with sweeps before and after the number dies. -/
def letGoSwept : List Step :=
  letGo.take 3 ++ {command := .purge "R"} :: (letGo.drop 3).take 1 ++
    {command := .purge "R"} :: letGo.drop 4

theorem letGo_unobservable :
    ({purgeInterval := 0} : Config).maxDepth = ({purgeInterval := 1} : Config).maxDepth ∧
      (letGo.filter (!·.isSweep)).map Step.unpaced =
        (letGoSwept.filter (!·.isSweep)).map Step.unpaced ∧
      observed letGo (run {purgeInterval := 0} letGo) =
        observed letGoSwept (run {purgeInterval := 1} letGoSwept) := by
  have hdepth : ({purgeInterval := 0} : Config).maxDepth = ({purgeInterval := 1} : Config).maxDepth :=
    rfl
  have hsteps : (letGo.filter (!·.isSweep)).map Step.unpaced =
      (letGoSwept.filter (!·.isSweep)).map Step.unpaced := rfl
  exact ⟨hdepth, hsteps, sweeps_unobservable hdepth hsteps⟩

end Session

end OpenVariants

import OpenVariants.Proofs.Answers

/-! How programs conduct themselves.

A program may be held to certain questions, and to passing on certain faults of what it
requests (`Program.Conforms`); or to instances of a kind, and to passing on faults of all but the
lazies of their fields (`Program.KeepsTo`). What answers requests passes on every fault that no
field claims for itself, and a body that is an expression passes on all of them
(`Expr.keepsTo_meaning`, `Expr.conforms_meaning`). -/
namespace OpenVariants

namespace Program

/-- The program fails with a fault, requesting nothing before. -/
inductive Raises {α : Type} (f : Fault) : Program α → Prop
  | fail : Raises f (.done (.error f))
  | ask {q : Query} {next : q.Answer → Program α} (h : ∀ a, Raises f (next a)) :
    Raises f (.ask q next)
  | make {content : Content} {next : Value → Program α} (h : ∀ v, Raises f (next v)) :
    Raises f (.make content next)
  | makeFunction {label : Option String} {body : Expr} {next : Value → Program α}
    (h : ∀ v, Raises f (next v)) : Raises f (.makeFunction label body next)
  | makeLazy {body : LazyBody} {next : Value → Program α} (h : ∀ v, Raises f (next v)) :
    Raises f (.makeLazy body next)
  | log {line : String} {next : Program α} (h : Raises f next) : Raises f (.log line next)

/-- The program asks no other questions than these, and fails with a fault of these as soon as
a request does. -/
inductive Conforms {α : Type} (asks : Query → Prop) (final : Fault → Prop) : Program α → Prop
  | done (result : Except Fault α) : Conforms asks final (.done result)
  | ask {q : Query} {next : q.Answer → Program α} (hq : asks q)
    (h : ∀ a, Conforms asks final (next a)) : Conforms asks final (.ask q next)
  | make {content : Content} {next : Value → Program α} (h : ∀ v, Conforms asks final (next v)) :
    Conforms asks final (.make content next)
  | makeFunction {label : Option String} {body : Expr} {next : Value → Program α}
    (h : ∀ v, Conforms asks final (next v)) : Conforms asks final (.makeFunction label body next)
  | makeLazy {body : LazyBody} {next : Value → Program α}
    (h : ∀ v, Conforms asks final (next v)) : Conforms asks final (.makeLazy body next)
  | log {line : String} {next : Program α} (h : Conforms asks final next) :
    Conforms asks final (.log line next)
  | request {r : Request} {next : Except Fault Value → Program α}
    (h : ∀ result, Conforms asks final (next result))
    (hfinal : ∀ f, final f → Raises f (next (.error f))) : Conforms asks final (.request r next)

variable {asks asks' : Query → Prop} {final : Fault → Prop} {α β : Type}

theorem bind_assoc {γ : Type} (p : Program α) (f : α → Program β) (g : β → Program γ) :
    p >>= f >>= g = p >>= fun a => f a >>= g := by
  simp only [bind_eq]
  induction p with
  | done result => cases result <;> rfl
  | ask q _ ih => exact congrArg (ask q) (funext ih)
  | make content _ ih => exact congrArg (make content) (funext ih)
  | makeFunction label body _ ih => exact congrArg (makeFunction label body) (funext ih)
  | makeLazy body _ ih => exact congrArg (makeLazy body) (funext ih)
  | log line _ ih => exact congrArg (log line) ih
  | request r _ ih => exact congrArg (request r) (funext ih)

theorem Raises.bind {f : Fault} {p : Program α} (h : p.Raises f) (k : α → Program β) :
    (p >>= k).Raises f := by
  rw [bind_eq]
  induction h with
  | fail => exact .fail
  | ask _ ih => exact .ask ih
  | make _ ih => exact .make ih
  | makeFunction _ ih => exact .makeFunction ih
  | makeLazy _ ih => exact .makeLazy ih
  | log _ ih => exact .log ih

namespace Conforms

theorem bind {p : Program α} {k : α → Program β} (hp : p.Conforms asks final)
    (hk : ∀ a, (k a).Conforms asks final) : (p >>= k).Conforms asks final := by
  induction hp with
  | done result =>
    cases result with
    | ok a => exact hk a
    | error f => exact .done _
  | ask hq _ ih => exact .ask hq ih
  | make _ ih => exact .make ih
  | makeFunction _ ih => exact .makeFunction ih
  | makeLazy _ ih => exact .makeLazy ih
  | log _ ih => exact .log ih
  | request _ hfinal ih => exact .request ih fun f hf => (hfinal f hf).bind k

theorem mono {p : Program α} (hp : p.Conforms asks final) (h : ∀ q, asks q → asks' q) :
    p.Conforms asks' final := by
  induction hp with
  | done result => exact .done result
  | ask hq _ ih => exact .ask (h _ hq) ih
  | make _ ih => exact .make ih
  | makeFunction _ ih => exact .makeFunction ih
  | makeLazy _ ih => exact .makeLazy ih
  | log _ ih => exact .log ih
  | request _ hfinal ih => exact .request ih hfinal

end Conforms

/-- Whoever may ask everything and need not pass anything on conforms. -/
theorem conforms_any (hasks : ∀ q, asks q) (hfinal : ∀ f, ¬final f) (p : Program α) :
    p.Conforms asks final := by
  induction p with
  | done result => exact .done result
  | ask q _ ih => exact .ask (hasks q) ih
  | make _ _ ih => exact .make ih
  | makeFunction _ _ _ ih => exact .makeFunction ih
  | makeLazy _ _ ih => exact .makeLazy ih
  | log _ _ ih => exact .log ih
  | request _ _ ih => exact .request ih fun f hf => absurd hf (hfinal f)

theorem conforms_query {q : Query} (hq : asks q) : (query q).Conforms asks final :=
  .ask hq fun _ => .done _

end Program

/-! ### What programs find and make -/

/-- All instances of the variant are among these. -/
def Variant.Makes (insts : Tag → List Value → Prop) (v : Variant) : Prop :=
  ∀ values, values.length = v.tag.arity → insts v.tag values

def Data.Makes (insts : Tag → List Value → Prop) (d : Data) : Prop :=
  ∀ v ∈ d.variants, v.Makes insts

theorem Data.variant_mem {d : Data} {name : String} {v : Variant} (h : d.variant name = .ok v) :
    v ∈ d.variants := by
  unfold Data.variant at h
  cases hfound : d.variant? name with
  | none =>
    rw [hfound] at h
    cases h
  | some u =>
    rw [hfound] at h
    cases h
    exact List.mem_of_find?_eq_some hfound

/-- The answer tells of such instances alone, and of data that makes no others. -/
def Query.Tells (insts : Tag → List Value → Prop) (q : Query) (answer : q.Answer) : Prop :=
  match q, answer with
  | .content _, content? => ∀ tag values, content? = some (.fields tag values) → insts tag values
  | .binding _, b? => ∀ d, b? = some (.data d) → d.Makes insts
  | _, _ => True

theorem Query.tells_any (q : Query) (answer : q.Answer) : q.Tells (fun _ _ => True) answer := by
  cases q with
  | content => exact fun _ _ _ => trivial
  | binding => exact fun _ _ _ _ _ _ => trivial
  | _ => trivial

/-- What the request constructs is such an instance. -/
def Request.Makes (insts : Tag → List Value → Prop) : Request → Prop
  | .construct v _ => v.Makes insts
  | _ => True

/-- The site of a lazy field of such an instance. -/
def FieldSite.Of (insts : Tag → List Value → Prop) (site : FieldSite) : Prop :=
  ∃ (tag : Tag) (values : List Value) (index : Nat) (id : ObjectId), insts tag values ∧
    values[index]? = some (.lazy id) ∧ site = ⟨tag.name, (tag.fields[index]?).getD ""⟩

namespace Program

/-- What is left of the reading of a field once its lazy was evaluated. -/
def afterForce (site : FieldSite) : Except Fault Value → Program Value
  | .ok v => pure v
  | .error f => fail (f.located site)

theorem fieldValue_lazy (tag : Tag) (index : Nat) (id : ObjectId) :
    fieldValue tag index (.lazy id) = request (.force id) fun result =>
      afterForce ⟨tag.name, (tag.fields[index]?).getD ""⟩ result >>= pure := by
  refine congrArg (request (.force id)) (funext fun result => ?_)
  cases result <;> rfl

/-- As long as the program finds such instances alone it makes no others; and it fails with a
fault of these as soon as a request does, unless that is the evaluation of a lazy for a field at
one of these sites. -/
inductive KeepsTo {α : Type} (insts : Tag → List Value → Prop) (sites : FieldSite → Prop)
    (final : Fault → Prop) : Program α → Prop
  | done (result : Except Fault α) : KeepsTo insts sites final (.done result)
  | ask {q : Query} {next : q.Answer → Program α}
    (h : ∀ a, q.Tells insts a → KeepsTo insts sites final (next a)) :
    KeepsTo insts sites final (.ask q next)
  | make {content : Content} {next : Value → Program α}
    (hcontent : ∀ tag values, content = .fields tag values → insts tag values)
    (h : ∀ v, KeepsTo insts sites final (next v)) : KeepsTo insts sites final (.make content next)
  | makeFunction {label : Option String} {body : Expr} {next : Value → Program α}
    (h : ∀ v, KeepsTo insts sites final (next v)) :
    KeepsTo insts sites final (.makeFunction label body next)
  | makeLazy {body : LazyBody} {next : Value → Program α}
    (h : ∀ v, KeepsTo insts sites final (next v)) : KeepsTo insts sites final (.makeLazy body next)
  | log {line : String} {next : Program α} (h : KeepsTo insts sites final next) :
    KeepsTo insts sites final (.log line next)
  | request {r : Request} {next : Except Fault Value → Program α} (hr : r.Makes insts)
    (h : ∀ result, KeepsTo insts sites final (next result))
    (hfinal : ∀ f, final f → Raises f (next (.error f))) :
    KeepsTo insts sites final (.request r next)
  | read {id : ObjectId} {site : FieldSite} {rest : Value → Program α} (hsite : sites site)
    (h : ∀ v, KeepsTo insts sites final (rest v)) :
    KeepsTo insts sites final (.request (.force id) fun result => afterForce site result >>= rest)

section KeepsTo
variable {insts : Tag → List Value → Prop} {sites : FieldSite → Prop} {final : Fault → Prop}
  {α β : Type}

theorem KeepsTo.bind {p : Program α} {k : α → Program β} (hp : p.KeepsTo insts sites final)
    (hk : ∀ a, (k a).KeepsTo insts sites final) : (p >>= k).KeepsTo insts sites final := by
  induction hp with
  | done result =>
    cases result with
    | ok a => exact hk a
    | error f => exact .done _
  | ask _ ih => exact .ask ih
  | make hcontent _ ih => exact .make hcontent ih
  | makeFunction _ ih => exact .makeFunction ih
  | makeLazy _ ih => exact .makeLazy ih
  | log _ ih => exact .log ih
  | request hr _ hfinal ih => exact .request hr ih fun f hf => (hfinal f hf).bind k
  | @read id site rest hsite _ ih =>
    -- The field is still read first, and then comes the rest of both.
    have hrest : (Program.request (.force id) fun result => afterForce site result >>= rest) >>= k =
        Program.request (.force id) fun result =>
          afterForce site result >>= fun v => rest v >>= k :=
      congrArg (Program.request (.force id))
        (funext fun result => bind_assoc (afterForce site result) rest k)
    rw [hrest]
    exact .read hsite ih

/-- A program that reads no fields by itself passes on what it has to. -/
theorem KeepsTo.conforms {asks : Query → Prop} {p : Program α}
    (hp : p.KeepsTo (fun _ _ => True) (fun _ => False) final) (hasks : ∀ q, asks q) :
    p.Conforms asks final := by
  induction hp with
  | done result => exact .done result
  | ask _ ih => exact .ask (hasks _) fun a => ih a (Query.tells_any _ a)
  | make _ _ ih => exact .make ih
  | makeFunction _ ih => exact .makeFunction ih
  | makeLazy _ ih => exact .makeLazy ih
  | log _ ih => exact .log ih
  | request _ _ hfinal ih => exact .request ih hfinal
  | read hsite => exact hsite.elim

end KeepsTo

/-! ### What answers requests -/

/-- A property that the parts of reading and matching have if they find such instances, and that
goes from two programs to one after the other. -/
structure Closed (insts : Tag → List Value → Prop) (C : (α : Type) → Program α → Prop) : Prop where
  done : ∀ {α : Type} (result : Except Fault α), C α (.done result)
  bind : ∀ {α β : Type} {p : Program α} {k : α → Program β}, C α p → (∀ a, C β (k a)) →
    C β (p >>= k)
  content : ∀ {α : Type} (v : Value) {k : Option Content → Program α},
    (∀ content?, (∀ tag values, content? = some (.fields tag values) → insts tag values) →
      C α (k content?)) → C α (query (.content v) >>= k)
  fieldValue : ∀ {tag : Tag} {values : List Value} {index : Nat} {v : Value}, insts tag values →
    values[index]? = some v → C Value (fieldValue tag index v)

namespace Closed
variable {insts : Tag → List Value → Prop} {C : (α : Type) → Program α → Prop} {α : Type}
  (h : Closed insts C)
include h

theorem instanceOf (v : Value) {k : Option (Tag × List Value) → Program α}
    (hk : ∀ found?, (∀ tag values, found? = some (tag, values) → insts tag values) →
      C α (k found?)) :
    C α (instanceOf v >>= k) := by
  rw [Program.instanceOf, bind_assoc]
  refine h.content v fun content? hcontent => ?_
  split
  · next tag values =>
    refine hk (some (tag, values)) fun _ _ hfound => ?_
    cases hfound
    exact hcontent tag values rfl
  · exact hk none fun _ _ hfound => by cases hfound

theorem indexedValue {tag : Tag} {values : List Value} (hinst : insts tag values) (index : Nat) :
    C _ (indexedValue tag values index) := by
  unfold Program.indexedValue
  split
  · next hvalue => exact h.fieldValue hinst hvalue
  · exact h.done _

theorem fieldAt (id : ObjectId) (index : Nat) : C _ (fieldAt id index) := by
  refine h.instanceOf _ fun found? hfound => ?_
  rcases found? with _ | ⟨tag, values⟩
  · exact h.done _
  · exact h.indexedValue (hfound tag values rfl) index

theorem fieldValues {tag : Tag} {values : List Value} (hinst : insts tag values) :
    ∀ read ∈ fieldValues tag values, C _ read := by
  intro read hread
  obtain ⟨index, hindex, rfl⟩ := List.mem_mapIdx.mp hread
  exact h.fieldValue hinst (List.getElem?_eq_getElem hindex)

mutual

theorem matching (p : Pattern) (v : Value) : C _ (p.matching v) := by
  cases p with
  | wildcard | literal | kind => exact h.done _
  | tag | data => exact h.instanceOf v fun _ _ => h.done _
  | record entries =>
    refine h.content v fun content? hcontent => ?_
    split
    · refine matchEntries entries fun key read hread => ?_
      obtain ⟨v, _, rfl⟩ := Option.map_eq_some_iff.mp hread
      exact h.done _
    · next tag values =>
      refine matchEntries entries fun key read hread => ?_
      obtain ⟨index, _, hread⟩ := Option.bind_eq_some_iff.mp hread
      exact h.fieldValues (hcontent tag values rfl) read (List.mem_of_getElem? hread)
    · exact h.done _
  | list items =>
    refine h.content v fun content? hcontent => ?_
    split
    · split
      · refine matchItems items fun read hread => ?_
        obtain ⟨v, _, rfl⟩ := List.mem_map.mp hread
        exact h.done _
      · exact h.done _
    · next tag values =>
      split
      · exact matchItems items (h.fieldValues (hcontent tag values rfl))
      · exact h.done _
    · exact h.done _
  | variant t fields =>
    refine h.instanceOf v fun found? hfound => ?_
    rcases found? with _ | ⟨tag, values⟩
    · exact h.done _
    · dsimp only
      split
      · refine matchItems fields fun read hread => ?_
        obtain ⟨index, _, rfl⟩ := List.mem_mapIdx.mp hread
        exact h.indexedValue (hfound tag values rfl) index
      · exact h.done _

theorem matchItems (patterns : List Pattern) {reads : List (Program Value)}
    (hreads : ∀ read ∈ reads, C _ read) : C _ (matchItems patterns reads) := by
  cases patterns with
  | nil =>
    unfold OpenVariants.matchItems
    exact h.done _
  | cons p patterns =>
    cases reads with
    | nil => exact h.done _
    | cons read reads =>
      obtain ⟨hread, hrest⟩ := List.forall_mem_cons.mp hreads
      refine h.bind hread fun v => h.bind (matching p v) fun matched => ?_
      split
      · exact matchItems patterns hrest
      · exact h.done _

theorem matchEntries (entries : List (String × Pattern))
    {read? : String → Option (Program Value)}
    (hreads : ∀ key read, read? key = some read → C _ read) : C _ (matchEntries entries read?) := by
  cases entries with
  | nil => exact h.done _
  | cons entry rest =>
    obtain ⟨key, p⟩ := entry
    unfold OpenVariants.matchEntries
    split
    · exact h.done _
    · next read hread =>
      refine h.bind (hreads key read hread) fun v => h.bind (matching p v) fun matched => ?_
      split
      · exact matchEntries rest hreads
      · exact h.done _

end

theorem ruleMatching (rule : Rule) (args : List Value) : C _ (rule.matching args) := by
  refine h.matchItems _ fun read hread => ?_
  obtain ⟨index, _, rfl⟩ := List.mem_mapIdx.mp hread
  exact h.done _

/-- What is selected is one of the rules; what follows may have a property of its own. -/
theorem selected {β : Type} {D : Program β → Prop}
    (hbind : ∀ {α : Type} {p : Program α} {k : α → Program β}, C α p → (∀ a, D (k a)) → D (p >>= k))
    (args : List Value) (rules : List Rule) {k : Option Rule → Program β} (hnone : D (k none))
    (hsome : ∀ rule ∈ rules, D (k (some rule))) : D (Rules.selecting args rules >>= k) := by
  induction rules with
  | nil => exact hnone
  | cons rule rest ih =>
    obtain ⟨hrule, hrest⟩ := List.forall_mem_cons.mp hsome
    rw [Rules.selecting, bind_assoc]
    refine hbind (h.ruleMatching rule args) fun matched => ?_
    cases matched with
    | true => exact hrule
    | false => exact ih hrest

end Closed

/-- No field claims a fault of these for itself. -/
abbrev Settled (final : Fault → Prop) : Prop := ∀ f site, final f → f.located site = f

theorem settled_none : Settled fun _ => False := fun _ _ h => h.elim

theorem closed_conforms (hcontent : ∀ v, asks (.content v)) (hfinal : Settled final) :
    Closed (fun _ _ => True) fun _ p => p.Conforms asks final where
  done result := .done result
  bind hp hk := hp.bind hk
  content v _ hk := .ask (hcontent v) fun content? => hk content? fun _ _ _ => trivial
  fieldValue {tag values index v} _ _ := by
    cases v with
    | lazy id =>
      refine .request (fun result => ?_) fun f hf => ?_
      · cases result <;> exact .done _
      · dsimp only
        rw [hfinal f _ hf]
        exact .fail
    | _ => exact .done _

/-- Reading keeps to the sites of the fields of what it finds. -/
theorem closed_keepsTo {insts : Tag → List Value → Prop} :
    Closed insts fun _ p => p.KeepsTo insts (FieldSite.Of insts) final where
  done result := .done result
  bind hp hk := hp.bind hk
  content v _ hk := .ask fun content? hcontent => hk content? hcontent
  fieldValue {tag values index v} hinst hvalue := by
    cases v with
    | lazy id =>
      rw [fieldValue_lazy]
      exact .read ⟨tag, values, index, id, hinst, hvalue, rfl⟩ fun v => .done _
    | _ => exact .done _

end Program

open Program

section Matching
variable {asks : Query → Prop} {insts : Tag → List Value → Prop} {final : Fault → Prop}

/-- The bodies of a case conform. -/
def Case.Conforms (asks : Query → Prop) (final : Fault → Prop) : Case → Prop
  | .handler body => ∀ args, (body args).Conforms asks final
  | .rules list => ∀ rule ∈ list.rules, ∀ args, (rule.handler args).Conforms asks final

def Bottom.Conforms (asks : Query → Prop) (final : Fault → Prop) : Bottom → Prop
  | .value _ => True
  | .compute body => ∀ args, (body args).Conforms asks final

/-- A case conforms if its bodies do. -/
theorem Case.Conforms.program {c : Case} (hc : c.Conforms asks final)
    (hcontent : ∀ v, asks (.content v)) (hwritten : ∀ v, asks (.written v))
    (hfinal : Settled final) (trait name : String) (args : List Value) :
    (c.program trait name args).Conforms asks final := by
  cases c with
  | handler body => exact hc args
  | rules list =>
    refine (closed_conforms hcontent hfinal).selected (fun hp hk => hp.bind hk) args list.rules ?_
      fun rule hrule => hc rule hrule args
    exact (conforms_query (hwritten _)).bind fun _ => .done _

/-- The bodies of a case keep to instances, to the sites of their fields, and to faults. -/
def Case.KeepsTo (insts : Tag → List Value → Prop) (final : Fault → Prop) : Case → Prop
  | .handler body => ∀ args, (body args).KeepsTo insts (FieldSite.Of insts) final
  | .rules list =>
    ∀ rule ∈ list.rules, ∀ args, (rule.handler args).KeepsTo insts (FieldSite.Of insts) final

def Bottom.KeepsTo (insts : Tag → List Value → Prop) (final : Fault → Prop) : Bottom → Prop
  | .value _ => True
  | .compute body => ∀ args, (body args).KeepsTo insts (FieldSite.Of insts) final

theorem Case.KeepsTo.program {c : Case} (hc : c.KeepsTo insts final) (trait name : String)
    (args : List Value) : (c.program trait name args).KeepsTo insts (FieldSite.Of insts) final := by
  cases c with
  | handler body => exact hc args
  | rules list =>
    refine closed_keepsTo.selected (fun hp hk => hp.bind hk) args list.rules ?_
      fun rule hrule => hc rule hrule args
    exact .ask fun _ _ => .done _

end Matching

/-! ### Expressions -/

namespace Program
variable {insts : Tag → List Value → Prop} {sites : FieldSite → Prop} {final : Fault → Prop}
  {α : Type}

theorem keepsTo_pure (a : α) : (pure a : Program α).KeepsTo insts sites final := .done _

theorem keepsTo_query (q : Query) : (query q).KeepsTo insts sites final := .ask fun _ _ => .done _

theorem keepsTo_perform {r : Request} (hr : r.Makes insts) :
    (perform r).KeepsTo insts sites final :=
  .request hr .done fun _ _ => .fail

theorem keepsTo_read (id : ObjectId) (index : Nat) :
    (perform (.read id index)).KeepsTo insts sites final := keepsTo_perform trivial

theorem keepsTo_newList (values : List Value) : (newList values).KeepsTo insts sites final :=
  .make (fun _ _ h => by cases h) keepsTo_pure

theorem keepsTo_lookUp (role name : String) (select : Binding → Option α) :
    (lookUp role name select).KeepsTo insts sites final := by
  refine (keepsTo_query _).bind fun b? => ?_
  split <;> exact .done _

/-- What follows when a variant was looked up may construct it. -/
theorem keepsTo_namedVariant {data variant : String} {k : Variant → Program α}
    (hk : ∀ v, v.Makes insts → (k v).KeepsTo insts sites final) :
    (namedVariant data variant >>= k).KeepsTo insts sites final := by
  rw [namedVariant, namedData, lookUp, bind_assoc, bind_assoc]
  refine .ask fun b? hb => ?_
  rcases b? with _ | b
  · exact .done _
  · cases b with
    | data d =>
      change (lift (d.variant variant) >>= k).KeepsTo insts sites final
      cases hv : d.variant variant with
      | ok v => exact hk v (hb d rfl v (Data.variant_mem hv))
      | error f => exact .done _
    | _ => exact .done _

theorem keepsTo_unexpected (what : Expectation) (found : Value) :
    (unexpected what found : Program α).KeepsTo insts sites final :=
  (keepsTo_query _).bind fun _ => .done _

theorem keepsTo_expectInstance (v : Value) :
    (expectInstance v).KeepsTo insts sites final := by
  refine (keepsTo_query _).bind fun content => ?_
  split
  · exact .done _
  · exact keepsTo_unexpected _ _

theorem keepsTo_expectRecord (v : Value) :
    (expectRecord v).KeepsTo insts sites final := by
  refine (keepsTo_query _).bind fun content => ?_
  split
  · exact .done _
  · exact keepsTo_unexpected _ _

theorem keepsTo_expectInt (v : Value) :
    (expectInt v).KeepsTo insts sites final := by
  unfold expectInt
  split
  · exact .done _
  · exact keepsTo_unexpected _ _

theorem keepsTo_expectFloat (v : Value) :
    (expectFloat v).KeepsTo insts sites final := by
  unfold expectFloat
  split
  · exact .done _
  · exact keepsTo_unexpected _ _

theorem keepsTo_itemsOf (v : Value) :
    (itemsOf v).KeepsTo insts sites final := by
  refine (keepsTo_query _).bind fun content => ?_
  split <;> exact .done _

theorem keepsTo_entriesOf (v : Value) :
    (entriesOf v).KeepsTo insts sites final := by
  refine (keepsTo_query _).bind fun content => ?_
  split <;> exact .done _

theorem keepsTo_plainText (v : Value) :
    (plainText v).KeepsTo insts sites final := by
  unfold plainText
  split
  · exact .done _
  · exact keepsTo_query _

theorem keepsTo_readField (v : Value) (name : String) :
    (readField v name).KeepsTo insts sites final := by
  refine (keepsTo_expectInstance v).bind fun found => ?_
  dsimp only
  split
  · exact keepsTo_perform trivial
  · exact .done _

theorem keepsTo_readFields (id : ObjectId) (count index : Nat) :
    (readFields id count index).KeepsTo insts sites final := by
  induction count generalizing index with
  | zero => exact .done _
  | succ n ih => exact (keepsTo_read id index).bind fun _ => (ih _).bind fun _ => .done _

theorem keepsTo_readEntries (id : ObjectId) (names : List String) (index : Nat) :
    (readEntries id names index).KeepsTo insts sites final := by
  induction names generalizing index with
  | nil => exact .done _
  | cons name names ih =>
    exact (keepsTo_read id index).bind fun _ => (keepsTo_newList _).bind fun _ =>
      (ih _).bind fun _ => .done _

theorem keepsTo_constructApply {v : Variant} (hv : v.Makes insts) (args : List Value) :
    (constructApply v args).KeepsTo insts sites final := by
  unfold constructApply
  split
  · exact (keepsTo_entriesOf _).bind fun _ => (KeepsTo.done _).bind fun _ => keepsTo_perform hv
  · exact keepsTo_perform hv

theorem keepsTo_ofIteration (v? : Option Value) : (ofIteration v?).KeepsTo insts sites final := by
  cases v? <;> exact .done _

theorem keepsTo_iterate {body : Nat → Value → Program Value}
    (hbody : ∀ index acc, (body index acc).KeepsTo insts sites final) (count index : Nat)
    (acc : Value) :
    (iterate body count index acc).KeepsTo insts sites final := by
  induction count generalizing index acc with
  | zero => exact .done _
  | succ n ih => exact (hbody index acc).bind fun _ => ih _ _

theorem keepsTo_reduceItems {body : Value → Value → Program Value}
    (hbody : ∀ item acc, (body item acc).KeepsTo insts sites final) (items : List Value)
    (acc : Value) :
    (reduceItems body items acc).KeepsTo insts sites final := by
  induction items generalizing acc with
  | nil => exact .done _
  | cons item rest ih => exact (hbody item acc).bind fun _ => ih _

theorem keepsTo_wrapped (count : Nat) (v : Value) :
    (wrapped count v).KeepsTo insts sites final := by
  induction count generalizing v with
  | zero => exact .done _
  | succ n ih => exact (keepsTo_newList _).bind fun _ => ih _

end Program

section Expressions
variable {asks : Query → Prop} {insts : Tag → List Value → Prop} {sites : FieldSite → Prop}
  {final : Fault → Prop}

mutual

/-- An expression makes what it finds the variants for, and passes on whatever its requests
fail with. -/
theorem Expr.keepsTo_meaning (e : Expr) (s : Scope) :
    (e.meaning s).KeepsTo insts sites final := by
  cases e with
  | literal | argCount | fail => exact .done _
  | list items =>
    exact (keepsTo_meanings items s).bind fun _ => keepsTo_newList _
  | record entries =>
    exact (keepsTo_entryMeanings entries s).bind fun _ =>
      .make (fun _ _ h => by cases h) keepsTo_pure
  | function label body => exact .makeFunction keepsTo_pure
  | lazy body => exact .makeLazy keepsTo_pure
  | knot name => exact (keepsTo_lookUp _ _ _).bind fun _ => .makeLazy keepsTo_pure
  | named name => exact keepsTo_lookUp _ _ _
  | arg index =>
    unfold Expr.meaning
    split <;> exact .done _
  | args => exact keepsTo_newList _
  | acc | item => exact keepsTo_ofIteration _
  | new data variant args =>
    exact keepsTo_namedVariant fun _ hv => (keepsTo_meanings args s).bind
      fun _ => keepsTo_perform hv
  | newKeyed data variant record =>
    exact keepsTo_namedVariant fun _ hv => (record.keepsTo_meaning s).bind
      fun _ => (keepsTo_expectRecord _).bind fun _ => (KeepsTo.done _).bind fun _ =>
        keepsTo_perform hv
  | apply data variant args =>
    exact keepsTo_namedVariant fun _ hv => (keepsTo_meanings args s).bind
      fun _ => keepsTo_constructApply hv _
  | unit data variant => exact (keepsTo_lookUp _ _ _).bind fun _ => .done _
  | field of name =>
    exact (of.keepsTo_meaning s).bind fun _ => keepsTo_readField _ _
  | fieldAt of index =>
    exact (of.keepsTo_meaning s).bind fun _ => (keepsTo_expectInstance _).bind
      fun _ => keepsTo_perform trivial
  | fields of =>
    exact (of.keepsTo_meaning s).bind fun _ => (keepsTo_expectInstance _).bind
      fun _ => (keepsTo_readFields _ _ _).bind fun _ => keepsTo_newList _
  | entries of =>
    exact (of.keepsTo_meaning s).bind fun _ => (keepsTo_expectInstance _).bind
      fun _ => (keepsTo_readEntries _ _ _).bind fun _ => keepsTo_newList _
  | stored of =>
    exact (of.keepsTo_meaning s).bind fun _ => (keepsTo_expectInstance _).bind
      fun _ => keepsTo_newList _
  | nth of index =>
    exact (of.keepsTo_meaning s).bind fun _ => (keepsTo_itemsOf _).bind
      fun _ => .done _
  | entry of key =>
    exact (of.keepsTo_meaning s).bind fun _ => (keepsTo_entriesOf _).bind
      fun _ => .done _
  | recur args | base args =>
    unfold Expr.meaning
    split
    · exact (keepsTo_meanings args s).bind fun _ => keepsTo_perform trivial
    · exact .done _
  | frame =>
    unfold Expr.meaning
    split
    · refine (keepsTo_query _).bind fun info? => ?_
      split
      · exact keepsTo_newList _
      · exact .done _
    · exact .done _
  | call trait args =>
    exact (keepsTo_lookUp _ _ _).bind fun _ => (keepsTo_meanings args s).bind
      fun _ => keepsTo_perform trivial
  | invoke function args =>
    refine (function.keepsTo_meaning s).bind fun f => (keepsTo_meanings args s).bind
      fun _ => ?_
    split
    · exact keepsTo_perform trivial
    · exact keepsTo_unexpected _ _
  | force of =>
    refine (of.keepsTo_meaning s).bind fun v => ?_
    split
    · exact keepsTo_perform trivial
    · exact .done _
  | int op a b =>
    refine (a.keepsTo_meaning s).bind fun _ => (keepsTo_expectInt _).bind fun _ =>
      (b.keepsTo_meaning s).bind fun _ => (keepsTo_expectInt _).bind fun _ => ?_
    split <;> exact .done _
  | less a b =>
    exact (a.keepsTo_meaning s).bind fun _ => (keepsTo_expectInt _).bind fun _ =>
      (b.keepsTo_meaning s).bind fun _ => (keepsTo_expectInt _).bind fun _ => .done _
  | float op a b =>
    exact (a.keepsTo_meaning s).bind fun _ => (keepsTo_expectFloat _).bind fun _ =>
      (b.keepsTo_meaning s).bind fun _ => (keepsTo_expectFloat _).bind fun _ => .done _
  | concat parts => exact (keepsTo_plainTexts parts s).bind fun _ => .done _
  | written of =>
    exact (of.keepsTo_meaning s).bind fun _ => (keepsTo_query _).bind
      fun _ => .done _
  | kind of => exact (of.keepsTo_meaning s).bind fun _ => .done _
  | same a b =>
    exact (a.keepsTo_meaning s).bind fun _ => (b.keepsTo_meaning s).bind
      fun _ => .done _
  | cond condition yes no =>
    refine (condition.keepsTo_meaning s).bind fun v => ?_
    split
    · exact yes.keepsTo_meaning s
    · exact no.keepsTo_meaning s
  | log line rest => exact .log (rest.keepsTo_meaning s)
  | logged of =>
    exact (of.keepsTo_meaning s).bind fun _ => (keepsTo_plainText _).bind
      fun _ => .log (.done _)
  | unify p of =>
    exact (p.keepsTo_build s).bind fun _ => (of.keepsTo_meaning s).bind
      fun _ => keepsTo_perform trivial
  | fold count start body =>
    exact (start.keepsTo_meaning s).bind fun _ =>
      keepsTo_iterate (fun _ _ => body.keepsTo_meaning _) _ _ _
  | reduce list start body =>
    exact (list.keepsTo_meaning s).bind fun _ => (keepsTo_itemsOf _).bind fun _ =>
      (start.keepsTo_meaning s).bind fun _ =>
        keepsTo_reduceItems (fun _ _ => body.keepsTo_meaning _) _ _
  | wrap count of => exact (of.keepsTo_meaning s).bind fun _ => keepsTo_wrapped _ _

theorem keepsTo_meanings (es : List Expr) (s : Scope) :
    (meanings es s).KeepsTo insts sites final := by
  cases es with
  | nil => exact .done _
  | cons e rest =>
    exact (e.keepsTo_meaning s).bind fun _ => (keepsTo_meanings rest s).bind
      fun _ => .done _

theorem keepsTo_entryMeanings (entries : List (String × Expr)) (s : Scope) :
    (entryMeanings entries s).KeepsTo insts sites final := by
  cases entries with
  | nil => exact .done _
  | cons entry rest =>
    obtain ⟨key, e⟩ := entry
    exact (e.keepsTo_meaning s).bind fun _ => (keepsTo_entryMeanings rest s).bind
      fun _ => .done _

theorem keepsTo_plainTexts (es : List Expr) (s : Scope) :
    (plainTexts es s).KeepsTo insts sites final := by
  cases es with
  | nil => exact .done _
  | cons e rest =>
    exact (e.keepsTo_meaning s).bind fun _ => (keepsTo_plainText _).bind fun _ =>
      (keepsTo_plainTexts rest s).bind fun _ => .done _

theorem PatternExpr.keepsTo_build (p : PatternExpr) (s : Scope) :
    (p.build s).KeepsTo insts sites final := by
  cases p with
  | wildcard | kind => exact .done _
  | literal e => exact (e.keepsTo_meaning s).bind fun _ => .done _
  | record entries => exact (keepsTo_buildEntries entries s).bind fun _ => .done _
  | list items => exact (keepsTo_buildItems items s).bind fun _ => .done _
  | tag data variant => exact keepsTo_namedVariant fun _ _ => .done _
  | data name => exact (keepsTo_lookUp _ _ _).bind fun _ => .done _
  | variant data variant fields =>
    exact keepsTo_namedVariant fun _ _ => (keepsTo_buildItems fields s).bind fun _ => .done _
  | named name => exact keepsTo_lookUp _ _ _

theorem keepsTo_buildItems (ps : List PatternExpr) (s : Scope) :
    (buildItems ps s).KeepsTo insts sites final := by
  cases ps with
  | nil => exact .done _
  | cons p rest =>
    exact (p.keepsTo_build s).bind fun _ => (keepsTo_buildItems rest s).bind
      fun _ => .done _

theorem keepsTo_buildEntries (ps : List (String × PatternExpr))
    (s : Scope) : (buildEntries ps s).KeepsTo insts sites final := by
  cases ps with
  | nil => exact .done _
  | cons entry rest =>
    obtain ⟨key, p⟩ := entry
    exact (p.keepsTo_build s).bind fun _ => (keepsTo_buildEntries rest s).bind
      fun _ => .done _

end

/-- So does what a lazy does. -/
theorem LazyBody.keepsTo_program (body : LazyBody) : body.program.KeepsTo insts sites final := by
  cases body with
  | expr e => exact e.keepsTo_meaning _
  | knot id => exact (keepsTo_query _).bind fun _ => .done _

theorem Expr.conforms_meaning (hasks : ∀ q, asks q) (e : Expr) (s : Scope) :
    (e.meaning s).Conforms asks final := (e.keepsTo_meaning s).conforms hasks

theorem LazyBody.conforms_program (hasks : ∀ q, asks q) (body : LazyBody) :
    body.program.Conforms asks final := body.keepsTo_program.conforms hasks

end Expressions

end OpenVariants

import OpenVariants.Proofs.Fields

/-! Three ways to match an instance.

The pattern of a variant reads the fields by their positions, a list pattern takes one
after the other, and a record pattern looks each one up by its name. All three match a
field before they read the next, so they come down to the same list of reads
(`unifyItems`): positions give it because an instance has a value for each field
(`indexedReads_eq`), names because no two fields share one (`unifyEntries_zip`). -/
namespace OpenVariants

/-- The pattern on a value with the tag; no other value matches. -/
def unifyTagged (P : Performer) (t : Tag) (p : Pattern) (v : Value) : Run Bool := do
  if ← unify P (.tag t) v then unify P p v else pure false

/-- Patterns, each on the value that is read for it, up to the first that does not match. -/
def unifyEach (P : Performer) (fields : List (Pattern × Run Value)) : Run Bool :=
  fields.allM fun field => do unify P field.1 (← field.2)

section
variable {P : Performer} {tag : Tag} {values : List Value}

/-! ### One list of reads -/

theorem unifyItems_eq (ps : List Pattern) (reads : List (Run Value)) :
    unifyItems P ps reads = unifyEach P (ps.zip reads) := by
  induction ps generalizing reads with
  | nil => simp only [List.zip_nil_left, unifyItems, unifyEach, List.allM]
  | cons p ps ih =>
    cases reads with
    | nil => simp only [List.zip_nil_right, unifyItems, unifyEach, List.allM]
    | cons read reads =>
      rw [unifyItems, List.zip_cons_cons, unifyEach, List.allM, bind_assoc]
      congr 1
      funext v
      congr 1
      funext matched
      cases matched with
      | true => exact ih reads
      | false => rfl

/-- A field that shares its name with no other is found at its position. -/
theorem Tag.fieldIndex?_getElem (hfields : tag.fields.Nodup) {i : Nat}
    (hi : i < tag.fields.length) : tag.fieldIndex? tag.fields[i] = some i := by
  rw [Tag.fieldIndex?, List.findIdx?_eq_some_iff_getElem]
  refine ⟨hi, by simp, fun j hj heq => ?_⟩
  exact List.pairwise_iff_getElem.mp hfields j i (Nat.lt_trans hj hi) hi hj (by simpa using heq)

/-- With a value for each field no position is out of range. -/
theorem indexedReads_eq {ps : List Pattern} (hlength : values.length = ps.length) :
    (ps.mapIdx fun index _ => indexedRead P tag values index) = fieldReads P tag values := by
  refine List.ext_getElem (by simp [fieldReads, hlength]) fun i hi hi' => ?_
  have hvalue : i < values.length := by simpa [fieldReads] using hi'
  simp [indexedRead, fieldReads, List.getElem?_eq_getElem hvalue]

/-- Looking up names is reading one after the other, if each name gives what stands at its
position. -/
theorem unifyEntries_zip {names : List String} {ps : List Pattern} {reads : List (Run Value)}
    {read? : String → Option (Run Value)} (hnames : names.length = ps.length)
    (hreads : reads.length = ps.length)
    (hread : ∀ i (hi : i < names.length), read? names[i] = reads[i]?) :
    unifyEntries P (names.zip ps) read? = unifyItems P ps reads := by
  induction ps generalizing names reads with
  | nil => simp only [List.zip_nil_right, unifyEntries, unifyItems]
  | cons p ps ih =>
    obtain ⟨name, names, rfl⟩ := List.exists_cons_of_length_eq_add_one hnames
    obtain ⟨read, reads, rfl⟩ := List.exists_cons_of_length_eq_add_one hreads
    have hfirst : read? name = some read := hread 0 (Nat.zero_lt_succ _)
    have hrest := ih (Nat.succ.inj hnames) (Nat.succ.inj hreads)
      fun i hi => hread (i + 1) (Nat.succ_lt_succ hi)
    simp only [List.zip_cons_cons, unifyEntries, unifyItems, hfirst, hrest]

/-! ### The three ways on an instance -/

variable {v : Value} {w : World}

/-- What is no instance with the tag is not looked into. -/
theorem unify_variant_foreign {t : Tag}
    (hno : (w.heap.instance? v).any (fun (tag, _) => tag.same t) = false) (ps : List Pattern) :
    unify P (.variant t ps) v w = (.ok false, w) := by
  rw [unify, Run.bind_apply, Run.get_apply]
  dsimp only
  cases hinst : w.heap.instance? v with
  | none => rfl
  | some found =>
    obtain ⟨tag, values⟩ := found
    have hother : tag.same t = false := by simpa [hinst] using hno
    simp only [hother]
    rfl

theorem unify_variant_inst (hinst : w.heap.instance? v = some (tag, values)) {ps : List Pattern}
    (hlength : values.length = ps.length) :
    unify P (.variant tag ps) v w = unifyItems P ps (fieldReads P tag values) w := by
  have hsame : tag.same tag = true := by simp [Tag.same]
  rw [unify, Run.bind_apply, Run.get_apply]
  simp only [hinst, if_pos hsame, indexedReads_eq hlength]

theorem unify_list_inst (hinst : w.heap.instance? v = some (tag, values)) {ps : List Pattern}
    (hlength : values.length = ps.length) :
    unify P (.list ps) v w = unifyItems P ps (fieldReads P tag values) w := by
  obtain ⟨id, rfl, hcontent⟩ := Heap.content?_of_instance hinst
  rw [unify, Run.bind_apply, Run.get_apply]
  simp only [hcontent, if_pos hlength]

theorem unify_record_inst (hinst : w.heap.instance? v = some (tag, values))
    (hfields : tag.fields.Nodup) (hvalues : values.length = tag.arity) {ps : List Pattern}
    (hlength : values.length = ps.length) :
    unify P (.record (tag.fields.zip ps)) v w = unifyItems P ps (fieldReads P tag values) w := by
  obtain ⟨id, rfl, hcontent⟩ := Heap.content?_of_instance hinst
  rw [unify, Run.bind_apply, Run.get_apply]
  simp only [hcontent]
  have hreads : (fieldReads P tag values).length = ps.length := by simpa [fieldReads] using hlength
  rw [unifyEntries_zip (hvalues.symm.trans hlength) hreads]
  intro i hi
  rw [Tag.fieldIndex?_getElem hfields hi, Option.bind_some]

theorem unifyTagged_eq (P : Performer) (t : Tag) (p : Pattern) (v : Value) (w : World) :
    unifyTagged P t p v w =
      if (w.heap.instance? v).any (fun (tag, _) => tag.same t) then unify P p v w
      else (.ok false, w) := by
  rw [unifyTagged, unify]
  simp only [Run.bind_apply, Run.get_apply, Run.pure_apply]
  split <;> rfl

end

/-! ### In a program -/

namespace Holder
variable {k : Holder}

/-- **Three ways to match an instance agree.** Whatever a program has come to, a pattern of
a declared variant, with a pattern for each field, does the same on every value as the list
of these patterns does on a value with the tag, and as the record that gives them to the
names of the fields. It matches or does not, or stops with the same error, in the same
world after it. That is so for every performer: lazies are evaluated through the performer
alone, so they are the same ones, in the same order, each in the same world. And what all
three do on an instance of the variant is to read the fields from left to right, and to try
each one before the next is read, up to the first that does not match. -/
theorem Reachable.ways_to_match (hk : k.Reachable) {V : Variant}
    (hV : (V.registry, V.tag) ∈ k.client.declared) {ps : List Pattern}
    (hps : ps.length = V.tag.arity) (P : Performer) (v : Value) :
    ∃ p, Pattern.ofVariant V ps = .ok p ∧
      unify P p v k.world = unifyTagged P V.tag (.list ps) v k.world ∧
      unify P p v k.world = unifyTagged P V.tag (.record (V.tag.fields.zip ps)) v k.world ∧
      ∀ values, k.world.heap.instance? v = some (V.tag, values) →
        unify P p v k.world = unifyEach P (ps.zip (fieldReads P V.tag values)) k.world := by
  refine ⟨.variant V.tag ps, if_pos hps, ?_⟩
  rw [unifyTagged_eq, unifyTagged_eq]
  cases hany : (k.world.heap.instance? v).any (fun (tag, _) => tag.same V.tag) with
  | false =>
    rw [unify_variant_foreign hany]
    refine ⟨rfl, rfl, fun values hinst => ?_⟩
    simp [hinst, Tag.same] at hany
  | true =>
    obtain ⟨⟨tag, values⟩, hinst, hsame⟩ := (Option.any_eq_true _ _).mp hany
    obtain rfl : tag = V.tag := hk.sound.client.world.tag_of_same hV hinst hsame
    obtain ⟨hfields, hvalues⟩ := hk.fields_of_instance hinst
    have hlength : values.length = ps.length := hvalues.trans hps.symm
    rw [unify_variant_inst hinst hlength, if_pos rfl, if_pos rfl, unify_list_inst hinst hlength,
      unify_record_inst hinst hfields hvalues hlength]
    refine ⟨rfl, rfl, fun values' hinst' => ?_⟩
    cases hinst.symm.trans hinst'
    rw [unifyItems_eq]

end Holder

/-! ### Three lazy fields -/

namespace Client

/-- A program that declared triples. -/
def triples : Client :=
  let (d, w) := World.addData 0 "Triples" none [⟨"Triple", ["first", "second", "third"]⟩]
    (World.addRegistry {} {}).2
  ⟨w, [d], d.variants.map fun v => (0, v.tag)⟩

theorem triples_reachable : triples.Reachable := by
  have hregistry : Steps {} {world := (World.addRegistry {} {}).2} :=
    .single (.registry {} {})
  refine hregistry.tail ?_
  exact .declare _ 0 "Triples" none [⟨"Triple", ["first", "second", "third"]⟩] _ _ (by decide)
    (by simp) rfl

def triple : Variant := ⟨⟨1, 0, "Triple", ["first", "second", "third"], 0⟩, none, 0⟩

/-- The program with one more lazy. -/
def withLazy (c : Client) (e : Expr) : Client :=
  {c with world := (c.world.newLazy (.expr e)).2}

/-- The program after it made a lazy for each field: the first one gives a number, the
second one raises an error, and each writes to the log. -/
def lazies : Client :=
  ((triples.withLazy (.log "first" (.literal (.int 1)))).withLazy
    (.log "second" (.fail "boom"))).withLazy (.log "third" (.literal .null))

theorem lazies_reachable : lazies.Reachable :=
  ((triples_reachable.tail (.lazy _ _)).tail (.lazy _ _)).tail (.lazy _ _)

/-- The program after it made a triple of the three. -/
def lazyTriple : Client :=
  {lazies with world :=
    ((Form.positional [.lazy 0, .lazy 1, .lazy 2]).run triple lazies.world).2}

theorem lazies_lazyTriple : Step lazies lazyTriple := by
  refine .construct lazies _ triple (.positional [.lazy 0, .lazy 1, .lazy 2]) (.inst 3) _
    List.mem_cons_self List.mem_cons_self ?_ rfl
  have hlazy : ∀ id body, lazies.world.heap.object? id = some (.lazy body) →
      lazies.world.heap.Proper (.lazy id) := fun _ _ ho => Heap.proper_reference ho
  intro a ha
  simp only [Form.values, List.mem_cons, List.not_mem_nil, or_false] at ha
  rcases ha with rfl | rfl | rfl
  · exact hlazy 0 _ rfl
  · exact hlazy 1 _ rfl
  · exact hlazy 2 _ rfl

/-- A pattern for each field of a triple. -/
def oneAndAny : List Pattern := [.literal (.int 1), .wildcard, .wildcard]

/-- The first field matches and the second one stops the match before the third is read,
whichever way the triple is matched. -/
theorem lazyTriple_stops :
    ∃ p, Pattern.ofVariant triple oneAndAny = .ok p ∧
      unify performAll p (.inst 3) lazyTriple.world =
        (.error (.fault (.program (.raised "boom"))),
          {lazyTriple.world with log := ["second", "first"]}) ∧
      unify performAll p (.inst 3) lazyTriple.world =
        unifyTagged performAll triple.tag (.list oneAndAny) (.inst 3) lazyTriple.world ∧
      unify performAll p (.inst 3) lazyTriple.world =
        unifyTagged performAll triple.tag (.record (triple.tag.fields.zip oneAndAny)) (.inst 3)
          lazyTriple.world := by
  have hreachable : Holder.Reachable ⟨lazyTriple, []⟩ :=
    Holder.Steps.of_client (lazies_reachable.tail lazies_lazyTriple)
  have hknown : (triple.registry, triple.tag) ∈ lazyTriple.declared := by decide
  have hlength : oneAndAny.length = triple.tag.arity := rfl
  obtain ⟨p, hp, hlist, hrecord, hreads⟩ :=
    hreachable.ways_to_match hknown hlength performAll (.inst 3)
  refine ⟨p, hp, ?_, hlist, hrecord⟩
  obtain ⟨n, hn⟩ : ∃ n, nestingBound = n + 1 := ⟨999999999, rfl⟩
  rw [hreads [.lazy 0, .lazy 1, .lazy 2] rfl, performAll, hn]
  rfl

end Client

end OpenVariants

import SymVec.Proofs.CompositeValues
import SymVec.Proofs.Readings
import SymVec.Proofs.Selection

/-!
# Replaced results

The returned value of a case is decoded like any other, and reports the references of its pointers.
Afterwards it can be replaced: by the literal that a predicate expects, or by null where a returned
pointer was proven to be null. The replacement exchanges the view and leaves the references alone.
So a case can say that the result is null and also that a member of it points to an object.

Whether a reference goes into the result is told by its path, which starts at the name of the value
that was read. What remains in a case is therefore exactly what was reported when the returned value
was decoded, unless another value bears its name. This is nothing if the decoded value is a leaf. It
is also nothing for most predicates: the literal of a composite value cannot be read as a number or
a truth value, and a comparison as text decodes a C string.

* `goesInto`, `StartsAt` — paths into an object;
* `Decoder.startsAt_of_mem_references` — decoding reports paths that start at its name;
* `TestCase.Assembly.result_references_kept` — the references into the result of a case;
* `TestCase.Assembly.exists_replaced_result` — replaced results with references into them.
-/

namespace SymVec

/-! ### Paths into an object -/

/-- Whether a path goes into the object of that name, to a member or an element of it. -/
def goesInto (name path : String) : Bool :=
  (Text.after? (name ++ ".") path).isSome || (Text.after? (name ++ "[") path).isSome

/-- A path starts at an object if it is the name of the object or goes into it. -/
def StartsAt (name path : String) : Prop := path = name ∨ goesInto name path = true

instance (name path : String) : Decidable (StartsAt name path) :=
  inferInstanceAs (Decidable (_ ∨ _))

/-- A path goes into an object if a point or a bracket follows the name. -/
theorem goesInto_iff {name path : String} :
    goesInto name path = true ↔
      ∃ rest, path = name ++ "." ++ rest ∨ path = name ++ "[" ++ rest := by
  simp only [goesInto, Bool.or_eq_true, Option.isSome_iff_exists, Text.after?_eq_some_iff,
    exists_or]

/-- A step is a point or an opening bracket, and what follows. -/
theorem goesInto_iff_toList {name path : String} :
    goesInto name path = true ↔
      ∃ c rest, (c = '.' ∨ c = '[') ∧ path.toList = name.toList ++ c :: rest := by
  rw [goesInto_iff]
  constructor
  · rintro ⟨rest, rfl | rfl⟩
    · exact ⟨'.', rest.toList, Or.inl rfl, by simp⟩
    · exact ⟨'[', rest.toList, Or.inr rfl, by simp⟩
  · rintro ⟨c, rest, rfl | rfl, heq⟩
    · exact ⟨String.ofList rest, Or.inl (String.toList_injective (by simp [heq]))⟩
    · exact ⟨String.ofList rest, Or.inr (String.toList_injective (by simp [heq]))⟩

/-- A path that starts at a path into an object starts at the object. -/
theorem StartsAt.trans {name path path' : String} (h : StartsAt name path)
    (h' : StartsAt path path') : StartsAt name path' := by
  rcases h' with rfl | h'
  · exact h
  · rcases h with rfl | h
    · exact Or.inr h'
    · -- what goes further goes into the object by the same step
      obtain ⟨c, rest, hc, hpath⟩ := goesInto_iff_toList.1 h
      obtain ⟨c', rest', -, hpath'⟩ := goesInto_iff_toList.1 h'
      refine Or.inr (goesInto_iff_toList.2 ⟨c, rest ++ c' :: rest', hc, ?_⟩)
      rw [hpath', hpath, List.append_assoc, List.cons_append]

/-- A name without steps. -/
def IsPlainName (name : String) : Prop := '.' ∉ name.toList ∧ '[' ∉ name.toList

instance (name : String) : Decidable (IsPlainName name) := inferInstanceAs (Decidable (_ ∧ _))

/-- A path that goes into two objects, of which the second has a plain name, goes into the first by
way of the second or the other way round. -/
theorem startsAt_of_goesInto {name other path : String} (hplain : IsPlainName name)
    (hinto : goesInto name path = true) (hstart : StartsAt other path) : StartsAt name other := by
  rcases hstart with rfl | hstart
  · exact Or.inr hinto
  obtain ⟨c, rest, hc, hpath⟩ := goesInto_iff_toList.1 hinto
  obtain ⟨c', rest', hc', hpath'⟩ := goesInto_iff_toList.1 hstart
  rw [hpath, List.append_eq_append_iff] at hpath'
  rcases hpath' with ⟨between, hother, hrest⟩ | ⟨between, hname, hrest⟩
  · cases between with
    | nil => exact Or.inl (String.toList_injective (by simpa using hother))
    | cons d between =>
      -- the other name is longer, and goes on with a step
      obtain ⟨rfl, -⟩ := List.cons.inj hrest
      exact Or.inr (goesInto_iff_toList.2 ⟨c, between, hc, hother⟩)
  · cases between with
    | nil => exact Or.inl (String.toList_injective (by simpa using hname.symm))
    | cons d between =>
      -- the plain name is longer, and would have a step in it
      obtain ⟨rfl, -⟩ := List.cons.inj hrest
      rcases hc' with rfl | rfl
      · exact absurd (by simp [hname]) hplain.1
      · exact absurd (by simp [hname]) hplain.2

/-! ### Reported paths -/

namespace Decoder

variable {d : Decoder} {bytes : Bytes}

/-- The paths of the slots start at the object, if there are any. -/
def Rooted (access : String) (slots : Option (List PointerSlot)) : Prop :=
  ∀ found, slots = some found → ∀ slot ∈ found, StartsAt access slot.path

theorem rooted_nil (access : String) : Rooted access (some []) := by
  rintro _ ⟨⟩ slot hslot
  cases hslot

theorem Rooted.mono {access inner : String} {slots : Option (List PointerSlot)}
    (h : StartsAt access inner) (hslots : Rooted inner slots) : Rooted access slots :=
  fun found hfound slot hslot => h.trans (hslots found hfound slot hslot)

/-- Joined slots are those of the parts. -/
theorem rooted_joined {access : String} {parts : List (Option (List PointerSlot))}
    (h : ∀ part ∈ parts, Rooted access part) : Rooted access (joined parts) := by
  induction parts with
  | nil => exact rooted_nil access
  | cons part rest ih =>
    intro found hfound slot hslot
    rw [joined] at hfound
    obtain ⟨first, hfirst, hfound⟩ := Option.bind_eq_some_iff.1 hfound
    obtain ⟨others, hothers, hfound⟩ := Option.bind_eq_some_iff.1 hfound
    obtain rfl := Option.some.inj hfound
    rcases List.mem_append.1 hslot with hslot | hslot
    · exact h part List.mem_cons_self first hfirst slot hslot
    · exact ih (fun part' hpart' => h part' (List.mem_cons_of_mem _ hpart')) others hothers slot
        hslot

theorem startsAt_element (access : String) (i : Nat) : StartsAt access s!"{access}[{i}]" :=
  Or.inr (goesInto_iff.2 ⟨toString i ++ "]", Or.inr (by simp [toString, String.append_assoc])⟩)

/-- A member without a name has the path of its record, and any other is one step further. -/
theorem startsAt_member (access : String) (f : Field) :
    StartsAt access (memberAccess access f) := by
  unfold memberAccess
  split
  · exact Or.inl rfl
  · exact Or.inr (goesInto_iff.2 ⟨f.name, Or.inl rfl⟩)

section Nested

variable {nested : CType → Nat → String → Option (List PointerSlot)}
  (hnested : ∀ t offset access, Rooted access (nested t offset access))

include hnested

theorem rooted_elementSlots (t : CType) (offset length : Nat) (access : String) :
    Rooted access (d.elementSlots nested t offset length access) := by
  unfold elementSlots
  split
  case h_3 => exact rooted_nil access
  -- each element begins one step into the array
  all_goals
    refine rooted_joined fun part hpart => ?_
    obtain ⟨i, -, rfl⟩ := List.mem_map.1 hpart
    exact (hnested _ _ _).mono (startsAt_element access i)

theorem rooted_memberSlots (kind : Record.Kind) (base : Nat) (access : String) (f : Field) :
    Rooted access (d.memberSlots nested kind base access f) := by
  refine Rooted.mono (startsAt_member access f) ?_
  unfold memberSlots
  cases d.registry.kindOf f.type <;> dsimp only
  -- a record is descended into, and what lies in it has its paths
  case struct | union => exact hnested _ _ _
  case array =>
    split
    · exact rooted_elementSlots hnested _ _ _ _
    · exact rooted_nil _
  case objectPointer =>
    -- a pointer in a union is not followed, so it has no slot
    cases kind with
    | struct =>
      rintro _ ⟨⟩ slot hslot
      rw [List.mem_singleton.1 hslot]
      exact Or.inl rfl
    | union => exact rooted_nil _
  all_goals exact rooted_nil _

end Nested

/-- The slots of a record are at paths into it. -/
theorem rooted_recordSlots (levels : Nat) (t : CType) (offset : Nat) (access : String) :
    Rooted access (d.recordSlots levels t offset access) := by
  -- the induction is on the depth, which the nested records have one less of
  induction levels generalizing t offset access with
  | zero => exact fun _ h => by cases h
  | succ levels ih =>
    unfold recordSlots
    split
    · refine rooted_joined fun part hpart => ?_
      obtain ⟨f, -, rfl⟩ := List.mem_map.1 hpart
      exact rooted_memberSlots ih _ _ _ f
    · exact fun _ h => by cases h

/-- The slots of a value are at its name or at paths into it. -/
theorem rooted_slots (t : CType) (usage : Usage) (length : Nat) (name : String) :
    Rooted name (d.slots t usage length name) := by
  have hsequence : Rooted name (d.sequenceSlots t usage length name) := by
    unfold sequenceSlots
    split
    · exact rooted_elementSlots (rooted_recordSlots _) _ _ _ _
    · exact rooted_nil name
  unfold slots
  cases d.registry.kindOf t <;> dsimp only
  case struct | union => exact rooted_recordSlots _ _ _ _
  case array => exact hsequence
  -- a pointer is either a slot itself or read as an array of what it points to
  case objectPointer =>
    split
    · rintro _ ⟨⟩ slot hslot
      rw [List.mem_singleton.1 hslot]
      exact Or.inl rfl
    · split
      · exact rooted_nil name
      · exact hsequence
  all_goals exact rooted_nil name

/-- **Reported paths** start at the name of what is decoded. -/
theorem startsAt_of_mem_references {t : CType} {usage : Usage} {name : String} {view : View}
    (h : (d.decode bytes t usage name).outcome = .ok view) {ref : Reference}
    (href : ref ∈ (d.decode bytes t usage name).references) : StartsAt name ref.path := by
  obtain ⟨found, hfound, hrefs, -⟩ := accounted_decode bytes t usage name view h
  rw [hrefs, List.mem_filterMap] at href
  obtain ⟨slot, hslot, href⟩ := href
  obtain ⟨known, -, rfl⟩ := Option.map_eq_some_iff.1 href
  exact rooted_slots t usage bytes.length name found hfound slot hslot

end Decoder

namespace TestCase

variable {d : Decoder} {v : TestVector}

/-! ### The returned value -/

/-- A required value is decoded from some bytes, and reports what their decoding does. -/
theorem exists_of_required {name : String} {t : CType} {alignment : Option Nat} {usage : Usage}
    {value : NamedValue} (h : (required d v name t alignment usage).outcome = .ok value) :
    ∃ bytes, (d.decode bytes t usage name).outcome = .ok value.view ∧
      (required d v name t alignment usage).references =
        (d.decode bytes t usage name).references := by
  obtain ⟨found, hfound, h⟩ := Traced.outcome_bind_eq_ok_iff.1 h
  rw [required, Traced.references_bind_of_ok hfound]
  unfold named? at hfound ⊢
  split at hfound
  · -- without bytes there is no value
    cases hfound
    cases h
  · next bytes hbytes =>
    obtain ⟨view, hview, hfound⟩ := Traced.outcome_bind_eq_ok_iff.1 hfound
    cases hfound
    cases h
    rw [Traced.references_bind_of_silent fun _ => rfl]
    exact ⟨bytes, hview, List.append_nil _⟩

/-- A returned value reports nothing, or it is composite. -/
theorem silent_or_composite_returnedValue {returnType : CType} {decoded : NamedValue}
    (h : (returnedValue d v returnType).outcome = .ok decoded) :
    (returnedValue d v returnType).references = [] ∨ Decoder.IsComposite decoded.view := by
  unfold returnedValue at h ⊢
  split at h
  · -- a result that is not checked is not decoded
    next hunchecked =>
    rw [if_pos hunchecked]
    exact Or.inl rfl
  · next hchecked =>
    rw [if_neg hchecked]
    obtain ⟨bytes, hview, hrefs⟩ := exists_of_required h
    dsimp only at hrefs ⊢
    rw [hrefs]
    exact Decoder.silent_or_composite (by decide) hview

/-- A returned C string reports nothing. -/
theorem references_returnedValue_cString : (returnedValue d v .cString).references = [] := by
  have hdecode : ∀ bytes, (d.decode bytes .cString .result resultName).references = [] := by
    intro bytes
    have hkind : d.registry.kindOf .cString = .objectPointer :=
      Registry.kindOf_eq_objectPointer_iff.2 (by decide)
    rw [Decoder.decode, hkind]
    rfl
  have hchecked : CType.isUnchecked .cString = false := by decide
  -- a C string is returned as an array, so it is decoded with the type that it has
  have harray : CType.isReturnedArray .cString = true := by decide
  unfold returnedValue
  rw [hchecked, harray]
  refine (Traced.references_bind_of_silent fun found => ?_).trans ?_
  · cases found <;> rfl
  · unfold named?
    split
    · rfl
    · exact (Traced.references_bind_of_silent fun _ => rfl).trans (hdecode _)

/-- The returned value is read under one name. -/
theorem name_of_mem_returnedReadings {returnType : CType} {x : Reading v}
    (h : x ∈ returnedReadings v returnType) : x.name = resultName := by
  unfold returnedReadings at h
  split at h
  · cases h
  · obtain ⟨i, -, rfl⟩ := List.mem_map.1 h
    rfl

/-- A flag of four bytes is written as the integer that they store. -/
theorem outcome_flagLiteral {name : String} {bytes : Bytes} (h : v.contents? name = some bytes)
    (hlength : 4 ≤ bytes.length) :
    (flagLiteral d v name).outcome =
      .ok (some (toString (Word.toSigned (Bytes.word (bytes.take 4)) 32))) := by
  have hkind : d.registry.kindOf .int = .primitive := rfl
  have hview : (d.decode bytes .int .parameter name).outcome =
      .ok (.primitive (toString (Word.toSigned (Bytes.word (bytes.take 4)) 32))) := by
    rw [Decoder.decode, hkind]
    dsimp only
    rw [outcome_primitiveView_int, if_pos hlength]
  unfold flagLiteral named?
  rw [h]
  dsimp only
  rw [Traced.bind_of_ok hview]
  rfl

/-- The paths of a reading start at its name. -/
theorem Reading.startsAt {x : Reading v} (hok : ∃ view, (x.decode d).outcome = .ok view)
    {ref : Reference} (href : ref ∈ x.references d) : StartsAt x.name ref.path := by
  obtain ⟨view, hview⟩ := hok
  exact Decoder.startsAt_of_mem_references hview href

/-- Readings of other objects report no reference into the object. -/
theorem filter_references_of_apart {readings : List (Reading v)} {name : String}
    (hplain : IsPlainName name) (hok : ∀ x ∈ readings, ∃ view, (x.decode d).outcome = .ok view)
    (hapart : ∀ x ∈ readings, ¬StartsAt name x.name) :
    (readings.flatMap (·.references d)).filter (fun ref => goesInto name ref.path) = [] := by
  -- a reference into the object comes from a reading that starts at the object
  rw [List.filter_eq_nil_iff]
  intro ref href hinto
  obtain ⟨x, hx, href⟩ := List.mem_flatMap.1 href
  exact hapart x hx (startsAt_of_goesInto hplain hinto (Reading.startsAt (hok x hx) href))

namespace Assembly

variable {a : Assembly}

/-- The readings before that of the returned value. -/
def readingsBefore (a : Assembly) (v : TestVector) : List (Reading v) :=
  receiverReadings v a.method.receiver ++
    a.method.parameters.flatMap (parameterReadings v) ++
    a.method.globals.flatMap (globalReadings v) ++
    v.indices.flatMap (stubReadings v a.method)

/-- The readings after that of the returned value. -/
def readingsAfter (a : Assembly) (g : ObjectGraph v) (returnType : CType) : List (Reading v) :=
  lazyReadings g (LazySearch.search a.registry g (a.roots returnType)).1 ++
    (a.method.parameters.filter (·.isFunctionPointer)).flatMap (stubParameterReadings v a.method)

/-- Whether a value other than the returned one is read under the name of the result, or of a member
or an element of it. -/
def SharesResultName (a : Assembly) (g : ObjectGraph v) (returnType : CType) : Prop :=
  ∃ x ∈ a.readingsBefore v ++ a.readingsAfter g returnType, StartsAt resultName x.name

/-- The returned value and the proof that it is not null, as they are decoded. -/
theorem returned_of_decodeVariables {returnType : CType} {vars : Variables}
    (h : (a.decodeVariables d v returnType).outcome = .ok vars) :
    (returnedValue d v returnType).outcome = .ok vars.returned ∧
      (flagLiteral d v notNullName).outcome = .ok vars.notNull :=
  ⟨(decodes_of_decodeVariables h).returned, (decodes_of_decodeVariables h).notNull⟩

/-- The references of a made case, those of the returned value between the others. -/
theorem references_of_decoded {g : ObjectGraph v} {returnType : CType} {vars : Variables}
    {returned : NamedValue} {c : TestCase}
    (decoded : (a.decodeVariables (a.decoder g.table) v returnType).outcome = .ok vars)
    (completed : (a.completeCase (a.decoder g.table) v g returnType vars returned).outcome =
      .ok c) :
    (a.decodeVariables (a.decoder g.table) v returnType).references ++
        (a.completeCase (a.decoder g.table) v g returnType vars returned).references =
      (a.readingsBefore v).flatMap (·.references (a.decoder g.table)) ++
        (returnedValue (a.decoder g.table) v returnType).references ++
        (a.readingsAfter g returnType).flatMap (·.references (a.decoder g.table)) ∧
      ∀ x ∈ a.readingsBefore v ++ returnedReadings v returnType ++ a.readingsAfter g returnType,
        ∃ view, (x.decode (a.decoder g.table)).outcome = .ok view := by
  obtain ⟨hvarRefs, hvarOk⟩ := reports_decodeVariables returnType vars decoded
  obtain ⟨hcaseRefs, hcaseOk⟩ := reports_completeCase g returnType vars returned c completed
  obtain ⟨hreturned, -⟩ := returned_of_decodeVariables decoded
  obtain ⟨hresultRefs, -⟩ := reports_returnedValue returnType vars.returned hreturned
  -- both halves of the case report what their readings do, in this order
  refine ⟨?_, fun x hx => ?_⟩
  · rw [hvarRefs, hcaseRefs, hresultRefs, ← List.flatMap_append, ← List.flatMap_append,
      ← List.flatMap_append]
    rfl
  · rcases List.mem_append.1 hx with hx | hx
    · exact hvarOk x hx
    · exact hcaseOk x hx

/-- What was reported for a value that passed a predicate: nothing, unless characters were
compared. -/
theorem references_of_applyPredicate {p : Predicate} (hcharacter : p.validation ≠ .character)
    {decoded selected : NamedValue}
    (hdecoded : (returnedValue d v (a.returnType (some p))).outcome = .ok decoded)
    (hselected : applyPredicate (some p) decoded = .ok (some selected)) :
    (returnedValue d v (a.returnType (some p))).references = [] := by
  by_cases htext : p.validation = .string
  · -- the value was decoded as a string, whatever the method returns
    have htype : a.returnType (some p) = .cString := if_pos htext
    rw [htype]
    exact references_returnedValue_cString
  · refine (silent_or_composite_returnedValue hdecoded).resolve_right fun hcomposite => ?_
    -- the predicate was evaluated on the literal of the value
    unfold applyPredicate at hselected
    cases hholds : p.holds decoded.view.literal with
    | error e =>
      simp only [hholds] at hselected
      cases hselected
    | ok holds =>
      rcases Decoder.validation_of_holds hcomposite hholds with h | h
      · exact hcharacter h
      · exact htext h

/-- The one vector whose case passes the filters makes one case. -/
theorem assemble_of_makes {predicate : Option Predicate} (hpredicate : a.predicate? = .ok predicate)
    (hflag : a.filters.pathFlag = false) {vars : Variables} {returned : NamedValue} {c : TestCase}
    (hmakes : a.Makes (a.returnType predicate) v vars returned c)
    (hreturned : applyPredicate predicate vars.returned = .ok (some returned)) :
    (a.assemble [v]).1 = .ok [{ c with index := 0 }] := by
  have hkept : a.filters.pathFlag = true → vars.pathFlag = some "1" := by
    rw [hflag]
    exact fun h => by cases h
  have hown : a.ownCase predicate v = some c :=
    ownCase_eq_some_iff.2 ⟨vars, returned, hmakes, hkept, hreturned⟩
  rw [assemble_eq hpredicate, List.filterMap_cons, hown]
  rfl

/-- **References into the result.** Each case comes from a vector whose returned value was decoded,
compared and, where it was proven to be null, replaced. The references that were reported for the
decoded value remain in the case, whatever it returns, and if no other value bears the name of the
result, these are all that go into the result. There are none if the decoded value was a leaf, and
none if it passed a predicate that compares no characters. -/
theorem result_references_kept {a : Assembly} {vectors : List TestVector} {cases : List TestCase}
    (h : (a.assemble vectors).1 = .ok cases) {c : TestCase} (hc : c ∈ cases) :
    ∃ predicate, a.predicate? = .ok predicate ∧ ∃ v ∈ vectors, ∃ g : ObjectGraph v,
      ObjectGraph.build v a.registry.pointerSize = .ok g ∧
      ∃ (decoded selected : NamedValue) (notNull : Option String) (reported : List Reference),
        (returnedValue (a.decoder g.table) v (a.returnType predicate)).outcome = .ok decoded ∧
        (returnedValue (a.decoder g.table) v (a.returnType predicate)).references = reported ∧
        (flagLiteral (a.decoder g.table) v notNullName).outcome = .ok notNull ∧
        applyPredicate predicate decoded = .ok (some selected) ∧
        c.returned = applyNullness (a.returnType predicate) notNull selected ∧
        (∀ ref ∈ reported, ref ∈ c.references ∧ StartsAt resultName ref.path) ∧
        (¬a.SharesResultName g (a.returnType predicate) →
          c.references.filter (fun ref => goesInto resultName ref.path) =
            reported.filter fun ref => goesInto resultName ref.path) ∧
        (decoded.view.isLeaf = true → reported = []) ∧
        ∀ p, predicate = some p → p.validation ≠ .character → reported = [] := by
  cases hpredicate : a.predicate? with
  | error e =>
    rw [assemble, hpredicate] at h
    cases h
  | ok predicate =>
  rw [assemble_eq hpredicate] at h
  cases h
  -- the case is that of a vector, but for its number
  obtain ⟨⟨own, number⟩, hown, rfl⟩ := List.mem_map.1 hc
  obtain ⟨v, hv, hown⟩ := List.mem_filterMap.1 (List.fst_mem_of_mem_zipIdx hown)
  obtain ⟨vars, selected, hmakes, -, hselected⟩ := ownCase_eq_some_iff.1 hown
  cases hmakes with
  | @intro g completed carries graph decoded hcompleted =>
  obtain ⟨hdecoded, hnotNull⟩ := returned_of_decodeVariables decoded
  obtain ⟨hrefs, hok⟩ := references_of_decoded decoded hcompleted
  have hreturned := returned_of_completeCase hcompleted
  refine ⟨predicate, rfl, v, hv, g, graph, vars.returned, selected, vars.notNull, _, hdecoded, rfl,
    hnotNull, hselected, hreturned, fun ref href => ⟨?_, ?_⟩, fun hshares => ?_,
    fun hleaf => ?_, ?_⟩
  · dsimp only
    rw [hrefs]
    exact List.mem_append_left _ (List.mem_append_right _ href)
  · -- what was reported starts at the name of the result
    rw [(reports_returnedValue _ _ hdecoded).1] at href
    obtain ⟨x, hx, href⟩ := List.mem_flatMap.1 href
    have hstart := Reading.startsAt
      (hok x (List.mem_append_left _ (List.mem_append_right _ hx))) href
    rwa [name_of_mem_returnedReadings hx] at hstart
  · dsimp only
    -- the readings on both sides report nothing into the result
    have hapart : ∀ x ∈ a.readingsBefore v ++ a.readingsAfter g (a.returnType predicate),
        ¬StartsAt resultName x.name := fun x hx hstart => hshares ⟨x, hx, hstart⟩
    rw [hrefs, List.filter_append, List.filter_append,
      filter_references_of_apart (by decide)
        (fun x hx => hok x (List.mem_append_left _ (List.mem_append_left _ hx)))
        (fun x hx => hapart x (List.mem_append_left _ hx)),
      filter_references_of_apart (by decide)
        (fun x hx => hok x (List.mem_append_right _ hx))
        (fun x hx => hapart x (List.mem_append_right _ hx)),
      List.nil_append, List.append_nil]
  · refine (silent_or_composite_returnedValue hdecoded).resolve_right fun hcomposite => ?_
    rw [hcomposite.not_isLeaf] at hleaf
    cases hleaf
  · rintro p rfl hcharacter
    exact references_of_applyPredicate hcharacter hdecoded hselected

/-! ### A search in a list -/

/-- A function that searches a list for a node. -/
def findAssembly (returnType : CType) (filters : Filters) : Assembly where
  registry := .ofLists [Decoder.nodeRecord] [] 8
  method :=
    { name := "find", parameters := [⟨"head", (CType.simple "node").pointer, none⟩], returnType }
  filters

/-- A node that leads back to the head of the list, and the proof that null was returned. -/
def findVector : TestVector where
  objects :=
    [⟨"head", [5, 0, 0, 0, 0, 0, 0, 0, 0, 0, 0, 0, 0, 0, 0, 0], [], 0x20, false⟩,
      ⟨resultName, [7, 0, 0, 0, 0, 0, 0, 0, 0x20, 0, 0, 0, 0, 0, 0, 0], [⟨8, 0⟩], 0x30, false⟩,
      ⟨notNullName, [0, 0, 0, 0], [], 0x40, false⟩]

/-- The node that is returned leads to the head. -/
def findGraph : ObjectGraph findVector where
  edges := [⟨⟨1, by decide⟩, 8, ⟨0, by decide⟩⟩]
  table := ⟨[(0x20, "head"), (0x30, resultName), (0x40, notNullName)]⟩

/-- All three objects are declared, so nothing is discovered. -/
theorem build_findVector : ObjectGraph.build findVector 8 = .ok findGraph := rfl

/-- The node that was found, as it is decoded. -/
def foundNode : View :=
  .struct "node" [("value", .primitive "7UL"), ("next", .primitive "NULL")] true none

/-- The reference of the node that was found. -/
def foundReference : Reference := ⟨"utbot_result.next", "head", "(node *)"⟩

/-- The roots are the head and the result. -/
def findVisits : List (Visit findVector) :=
  [⟨⟨0, by decide⟩, .simple "node", "head"⟩, ⟨⟨1, by decide⟩, .simple "node", resultName⟩]

/-- The search visits both nodes, of which the second leads to the first. -/
theorem search_findGraph {returnType : CType} (filters : Filters)
    (h : returnType = (CType.simple "node").pointer ∨ returnType = .simple "node") :
    LazySearch.search (findAssembly returnType filters).registry findGraph
      ((findAssembly returnType filters).roots returnType) = (findVisits, none) := by
  have hstart :
      LazySearch.start findVector ((findAssembly returnType filters).roots returnType) [] =
        findVisits := by
    rcases h with rfl | rfl <;> rfl
  unfold LazySearch.search
  rw [hstart]
  change LazySearch.explore (findAssembly returnType filters).registry findGraph
    [findVisits[0], findVisits[1]] [findVisits[0].object, findVisits[1].object] = _
  have first : LazySearch.follow (findAssembly returnType filters).registry findVisits[0]
      (findGraph.edgesFrom findVisits[0].object) [findVisits[0].object, findVisits[1].object] =
        .ok [] := rfl
  have second : LazySearch.follow (findAssembly returnType filters).registry findVisits[1]
      (findGraph.edgesFrom findVisits[1].object) [findVisits[0].object, findVisits[1].object] =
        .ok [] := rfl
  rw [LazySearch.explore_cons_of_ok first]
  simp only [List.map_nil, List.nil_append, List.append_nil]
  rw [LazySearch.explore_cons_of_ok second, List.nil_append, LazySearch.explore_nil]
  rfl

/-- Both kinds of results are decoded as the node that was found, with its reference, and null is
proven. -/
theorem exists_makes_find {returnType : CType} (filters : Filters)
    (h : returnType = (CType.simple "node").pointer ∨ returnType = .simple "node")
    (returned : NamedValue) :
    ∃ vars c, (findAssembly returnType filters).Makes returnType findVector vars returned c ∧
      vars.returned = ⟨resultName, .simple "node", none, foundNode⟩ ∧
      c.returned = applyNullness returnType (some "0") returned ∧
      foundReference ∈ c.references := by
  obtain ⟨vars, hvars⟩ : ∃ vars, ((findAssembly returnType filters).decodeVariables
      ((findAssembly returnType filters).decoder findGraph.table) findVector
        returnType).outcome = .ok vars := by
    rcases h with rfl | rfl <;> exact ⟨_, rfl⟩
  obtain ⟨c, hcompleted⟩ : ∃ c, ((findAssembly returnType filters).completeCase
      ((findAssembly returnType filters).decoder findGraph.table) findVector findGraph returnType
        vars returned).outcome = .ok c := by
    -- no object is lazy, so none is declared
    have hdeclared : (LazySearch.declarations
        ((findAssembly returnType filters).decoder findGraph.table) findGraph
          ((findAssembly returnType filters).roots returnType)).outcome = .ok [] := by
      have hsearch : LazySearch.search
          ((findAssembly returnType filters).decoder findGraph.table).registry findGraph
          ((findAssembly returnType filters).roots returnType) = (findVisits, none) :=
        search_findGraph filters h
      unfold LazySearch.declarations
      rw [hsearch]
      rcases h with rfl | rfl <;> rfl
    unfold completeCase
    rw [Traced.bind_of_ok hdeclared]
    exact ⟨_, rfl⟩
  have hcarries : (findAssembly returnType filters).carriesValues returnType findVector = true := by
    rcases h with rfl | rfl <;> rfl
  obtain ⟨hreturned, hnotNull⟩ := returned_of_decodeVariables hvars
  -- only this value is needed in full, and the types of results lead to the same one
  have hfound : returnedValue ((findAssembly returnType filters).decoder findGraph.table) findVector
      returnType =
        ⟨.ok ⟨resultName, .simple "node", none, foundNode⟩, [foundReference], []⟩ := by
    rcases h with rfl | rfl <;> rfl
  have hzero : (flagLiteral ((findAssembly returnType filters).decoder findGraph.table) findVector
      notNullName).outcome = .ok (some "0") := by
    have hcontents : findVector.contents? notNullName = some [0, 0, 0, 0] := rfl
    have hvalue : Word.toSigned (Bytes.word (List.take 4 [0, 0, 0, 0])) 32 = 0 := by
      decide +kernel
    rw [outcome_flagLiteral hcontents (by decide), hvalue]
    rfl
  have hview := returned_of_completeCase hcompleted
  refine ⟨vars, _, .intro hcarries build_findVector hvars hcompleted, ?_, ?_, ?_⟩
  · rw [hfound] at hreturned
    exact (Except.ok.inj hreturned).symm
  · rwa [Except.ok.inj (hnotNull.symm.trans hzero)] at hview
  · dsimp only
    rw [(references_of_decoded hvars hcompleted).1, hfound]
    simp

/-- The node that was found is replaced by null. -/
theorem assemble_find :
    ∃ c, ((findAssembly (CType.simple "node").pointer {}).assemble [findVector]).1 = .ok [c] ∧
      c.returned.view = .primitive "NULL" ∧ foundReference ∈ c.references := by
  obtain ⟨vars, c, hmakes, hreturned, hview, href⟩ := exists_makes_find {} (Or.inl rfl)
    ⟨resultName, .simple "node", none, foundNode⟩
  rw [← hreturned] at hmakes
  have hpredicate : (findAssembly (CType.simple "node").pointer {}).predicate? = .ok none := rfl
  refine ⟨_, assemble_of_makes hpredicate rfl hmakes rfl, ?_, href⟩
  dsimp only
  rw [hview]
  rfl

/-- A node that is compared as a character is replaced by that character. -/
theorem assemble_findDifferent :
    ∃ c, ((findAssembly (.simple "node") { predicate := some ⟨"!=", "a", "char"⟩ }).assemble
        [findVector]).1 = .ok [c] ∧
      c.returned.view = .primitive "'a'" ∧ foundReference ∈ c.references := by
  obtain ⟨vars, c, hmakes, hreturned, hview, href⟩ := exists_makes_find
    { predicate := some ⟨"!=", "a", "char"⟩ } (Or.inr rfl)
    ⟨resultName, .simple "node", none, .primitive "'a'"⟩
  -- the predicate compares the literal with a character in quotes
  have hmake : Predicate.make "!=" "a" "char" =
      .ok ⟨.different, "a", .character, .text "'a'"⟩ := by decide
  have hselected : applyPredicate (some ⟨.different, "a", .character, .text "'a'"⟩) vars.returned =
      .ok (some ⟨resultName, .simple "node", none, .primitive "'a'"⟩) := by
    rw [hreturned]
    rfl
  have hpredicate : (findAssembly (.simple "node")
      { predicate := some ⟨"!=", "a", "char"⟩ }).predicate? =
        .ok (some ⟨.different, "a", .character, .text "'a'"⟩) := by
    rw [predicate?]
    change (Predicate.make "!=" "a" "char").map some = _
    rw [hmake]
    rfl
  refine ⟨_, assemble_of_makes hpredicate rfl hmakes hselected, ?_, href⟩
  dsimp only
  rw [hview]
  rfl

/-- **A replaced result keeps its references**, where it is null and where it is a character. -/
theorem exists_replaced_result :
    (∃ (a : Assembly) (v : TestVector) (c : TestCase), (a.assemble [v]).1 = .ok [c] ∧
      c.returned.view = .primitive "NULL" ∧ c.returned.view.isLeaf = true ∧
      ∃ ref ∈ c.references, goesInto resultName ref.path = true) ∧
    ∃ (a : Assembly) (v : TestVector) (c : TestCase), (a.assemble [v]).1 = .ok [c] ∧
      c.returned.view = .primitive "'a'" ∧ c.returned.view.isLeaf = true ∧
      ∃ ref ∈ c.references, goesInto resultName ref.path = true := by
  obtain ⟨c, hc, hview, href⟩ := assemble_find
  obtain ⟨c', hc', hview', href'⟩ := assemble_findDifferent
  refine ⟨⟨_, _, c, hc, hview, ?_, foundReference, href, by decide⟩,
    ⟨_, _, c', hc', hview', ?_, foundReference, href', by decide⟩⟩
  · rw [hview]
    rfl
  · rw [hview']
    rfl

/-- Of the references of the search in a list, one goes into the result that was replaced by
null. -/
theorem find_references_kept :
    ∃ c, ((findAssembly (CType.simple "node").pointer {}).assemble [findVector]).1 = .ok [c] ∧
      c.returned.view = .primitive "NULL" ∧
      c.references.filter (fun ref => goesInto resultName ref.path) = [foundReference] := by
  obtain ⟨c, hc, hview, -⟩ := assemble_find
  obtain ⟨predicate, hpredicate, v, hv, g, hg, decoded, selected, notNull, reported, -, hreported,
    -, -, -, -, hkept, -⟩ := result_references_kept hc (List.mem_singleton.2 rfl)
  cases hpredicate
  obtain rfl := List.mem_singleton.1 hv
  obtain rfl : findGraph = g := Except.ok.inj (build_findVector.symm.trans hg)
  have hrefs : reported = [foundReference] := hreported.symm
  have hapart : ¬(findAssembly (CType.simple "node").pointer {}).SharesResultName findGraph
      (CType.simple "node").pointer := by
    rintro ⟨x, hx, hstart⟩
    rw [readingsAfter, search_findGraph {} (Or.inl rfl)] at hx
    obtain rfl := List.mem_singleton.1 hx
    exact absurd hstart (by decide)
  refine ⟨c, hc, hview, (hkept hapart).trans ?_⟩
  rw [hrefs]
  decide

end Assembly

end TestCase

end SymVec

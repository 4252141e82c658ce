import SymVec.Proofs.PointerSlots
import SymVec.Proofs.Tracing

/-!
# Accounts of pointers

Decoding accounts for each pointer slot of a type exactly once. It reads the stored address; if the
address table knows it, a reference is reported and the pointer is left null, and otherwise the
address is written out. The references are thus those of the slots in their order, and the views of
the slots are found at the same places of the decoded value.

What a decoding step owes to a list of slots is `Decoder.Accounted`. It is put together along the
decoder: a silent step owes nothing, steps in a row owe the slots of their parts in a row, and a
record owes what its members do, by induction on how deep records may be nested in it.

* `Decoder.accounted_recordView`, `Decoder.accounted_decode` — records and buffers account for
  their slots;
* `Decoder.pointers_accounted` — the same, with the references reported before.
-/

namespace SymVec.Decoder

variable {d : Decoder} {bytes : Bytes} {α β : Type}

/-- **Accounted step.** If the step succeeds, then it reports the references of the slots in
their order, its result has the views of the slots in their order, and each slot lies within the
buffer. -/
def Accounted (d : Decoder) (bytes : Bytes) (step : Traced α) (slots : Option (List PointerSlot))
    (pointers : α → List View) : Prop :=
  ∀ a, step.outcome = .ok a → ∃ found, slots = some found ∧
    step.references = found.filterMap (d.referenceAt bytes) ∧
    pointers a = found.map (d.slotView bytes) ∧
    ∀ slot ∈ found, slot.offset + d.registry.pointerSize ≤ bytes.length

/-! ### Combining steps -/

/-- A step that reports nothing, with no views at slots, accounts for none. -/
theorem accounted_of_silent {step : Traced α} {pointers : α → List View}
    (hsilent : step.references = []) (hnone : ∀ a, step.outcome = .ok a → pointers a = []) :
    d.Accounted bytes step (some []) pointers := by
  intro a ha
  exact ⟨[], rfl, hsilent, hnone a ha, by simp⟩

theorem accounted_fail (e : DecodeError) (slots : Option (List PointerSlot))
    (pointers : α → List View) : d.Accounted bytes (Traced.fail e) slots pointers := by
  intro a ha
  exact absurd ha (Traced.outcome_fail_ne_ok e a)

/-- A silent step may come before. -/
theorem accounted_bind {before : Traced α} {next : α → Traced β}
    {slots : Option (List PointerSlot)} {pointers : β → List View}
    (hsilent : before.references = [])
    (h : ∀ a, before.outcome = .ok a → d.Accounted bytes (next a) slots pointers) :
    d.Accounted bytes (before >>= next) slots pointers := by
  intro b hb
  obtain ⟨a, ha, hb⟩ := Traced.outcome_bind_eq_ok_iff.1 hb
  obtain ⟨found, hslots, hrefs, hrest⟩ := h a ha b hb
  refine ⟨found, hslots, ?_, hrest⟩
  rw [Traced.references_bind_of_ok ha, hsilent, List.nil_append, hrefs]

/-- A silent step may come after, if its result has the same views at the slots. -/
theorem Accounted.bind {step : Traced α} {next : α → Traced β}
    {slots : Option (List PointerSlot)} {pointers : α → List View} {pointers' : β → List View}
    (h : d.Accounted bytes step slots pointers) (hsilent : ∀ a, (next a).references = [])
    (hsame : ∀ a b, step.outcome = .ok a → (next a).outcome = .ok b → pointers' b = pointers a) :
    d.Accounted bytes (step >>= next) slots pointers' := by
  intro b hb
  obtain ⟨a, ha, hb⟩ := Traced.outcome_bind_eq_ok_iff.1 hb
  obtain ⟨found, hslots, hrefs, hviews, hwithin⟩ := h a ha
  refine ⟨found, hslots, ?_, ?_, hwithin⟩
  · rw [Traced.references_bind_of_silent hsilent, hrefs]
  · rw [hsame a b ha hb, hviews]

/-- Steps in a row account for the slots of their parts in a row. -/
theorem accounted_mapM {f : α → Traced β} {slots : α → Option (List PointerSlot)}
    {pointers : α → β → List View} {xs : List α}
    (h : ∀ x ∈ xs, d.Accounted bytes (f x) (slots x) (pointers x)) :
    d.Accounted bytes (xs.mapM f) (joined (xs.map slots))
      fun ys => (xs.zip ys).flatMap fun p => pointers p.1 p.2 := by
  induction xs with
  | nil => exact accounted_of_silent rfl fun ys _ => by simp
  | cons x rest ih =>
    intro ys hys
    rw [List.mapM_cons] at hys ⊢
    -- the first step and the others succeed, each with its own slots
    obtain ⟨y, hy, hys⟩ := Traced.outcome_bind_eq_ok_iff.1 hys
    obtain ⟨ys', hys', hys⟩ := Traced.outcome_bind_eq_ok_iff.1 hys
    cases hys
    obtain ⟨first, hfirst, hrefs, hviews, hwithin⟩ := h x List.mem_cons_self y hy
    obtain ⟨others, hothers, hrefs', hviews', hwithin'⟩ :=
      ih (fun x' hx' => h x' (List.mem_cons_of_mem _ hx')) ys' hys'
    refine ⟨first ++ others, ?_, ?_, ?_, ?_⟩
    · rw [List.map_cons, joined, hfirst, hothers]
      rfl
    · rw [Traced.references_bind_of_ok hy, Traced.references_bind_of_silent fun _ => rfl, hrefs,
        hrefs', List.filterMap_append]
    · change pointers x y ++ (rest.zip ys').flatMap (fun p => pointers p.1 p.2) = _
      change (rest.zip ys').flatMap (fun p => pointers p.1 p.2) = _ at hviews'
      rw [hviews, hviews', List.map_append]
    · intro slot hslot
      rcases List.mem_append.1 hslot with hslot | hslot
      · exact hwithin slot hslot
      · exact hwithin' slot hslot

/-- The same where all steps have the same views at slots. -/
theorem accounted_mapM_of_uniform {f : α → Traced β} {slots : α → Option (List PointerSlot)}
    {pointers : β → List View} {xs : List α}
    (h : ∀ x ∈ xs, d.Accounted bytes (f x) (slots x) pointers) :
    d.Accounted bytes (xs.mapM f) (joined (xs.map slots)) fun ys => ys.flatMap pointers := by
  intro ys hys
  obtain ⟨found, hslots, hrefs, hviews, hwithin⟩ := accounted_mapM h ys hys
  refine ⟨found, hslots, hrefs, ?_, hwithin⟩
  -- each view stands beside the part that it is of
  have hlength : ys.length ≤ xs.length :=
    Nat.le_of_eq (Traced.outcome_mapM_eq_ok_iff.1 hys).length_eq.symm
  calc ys.flatMap pointers
      = ((xs.zip ys).map Prod.snd).flatMap pointers := by rw [List.map_snd_zip hlength]
    _ = (xs.zip ys).flatMap fun p => pointers p.2 := List.flatMap_map ..
    _ = found.map (d.slotView bytes) := hviews

/-! ### Scalars -/

@[simp] theorem references_primitiveView (t : CType) (offset : Nat) :
    (primitiveView bytes t offset).references = [] := by
  unfold primitiveView
  split
  · rfl
  · rw [Traced.references_bind_of_silent fun _ => rfl, references_readBytes]

@[simp] theorem references_bitFieldView (f : Field) (p : Primitive) (offset : Nat) :
    (bitFieldView bytes f p offset).references = [] := by
  unfold bitFieldView
  rw [Traced.references_bind_of_silent fun _ => rfl, references_readBytes]

@[simp] theorem references_enumerationView (t : CType) (offset : Nat) :
    (d.enumerationView bytes t offset).references = [] := by
  unfold enumerationView
  refine (Traced.references_bind_of_silent fun e => ?_).trans (Traced.references_ofLayout _)
  refine (Traced.references_bind_of_silent fun run => ?_).trans (references_readBytes _ _ _)
  dsimp only
  split <;> rfl

/-- A pointer within the buffer is read, and the table decides what it is. -/
theorem pointerView_of_within (slot : PointerSlot)
    (h : slot.offset + d.registry.pointerSize ≤ bytes.length) :
    d.pointerView bytes slot.type slot.offset slot.path =
      ⟨.ok (d.slotView bytes slot), (d.referenceAt bytes slot).toList, []⟩ := by
  have hread : readBytes bytes slot.offset d.registry.pointerSize =
      pure ((bytes.drop slot.offset).take d.registry.pointerSize) := by
    rw [readBytes, Bytes.slice?, if_pos h]
  rw [pointerView, hread, pure_bind, slotView, referenceAt, storedAddress]
  dsimp only
  split
  · next name hknown =>
    rw [hknown]
    rfl
  · next hunknown =>
    rw [hunknown]
    rfl

/-- A stored pointer is a slot of its own. -/
theorem accounted_pointerView (t : CType) (offset : Nat) (access : String) :
    d.Accounted bytes (d.pointerView bytes t offset access) (some [⟨access, offset, t⟩])
      fun view => [view] := by
  intro view hview
  -- the address could only be read within the buffer
  have hwithin : offset + d.registry.pointerSize ≤ bytes.length := by
    obtain ⟨run, hrun, -⟩ := Traced.outcome_bind_eq_ok_iff.1 hview
    rw [outcome_readBytes] at hrun
    split at hrun
    · assumption
    · cases hrun
  have hpointer := pointerView_of_within (d := d) ⟨access, offset, t⟩ hwithin
  rw [hpointer] at hview ⊢
  refine ⟨_, rfl, ?_, ?_, ?_⟩
  · cases hreference : d.referenceAt bytes ⟨access, offset, t⟩ <;> simp [hreference]
  · cases hview
    rfl
  · intro slot hslot
    rw [List.mem_singleton.1 hslot]
    exact hwithin

/-! ### Arrays -/

/-- Opening as many arrays as elements were grouped by, or more, gives back the elements. -/
theorem flatten_group {sizes : List Nat} {elements leaves : List View} {depth : Nat}
    (h : ∀ m, depth ≤ m → View.flatten m elements = leaves) :
    ∀ m, depth + sizes.length ≤ m → View.flatten m (group sizes elements) = leaves := by
  induction sizes generalizing elements depth with
  | nil => exact h
  | cons size outer ih =>
    intro m hm
    rw [List.length_cons] at hm
    unfold group
    split
    · -- grouping ends before a length of zero
      exact h m (by omega)
    · next hsize =>
      -- one level more of arrays, opened by one step more
      have hopened : ∀ m', depth + 1 ≤ m' →
          View.flatten m' ((chunks size elements).map .array) = leaves := by
        intro m' hm'
        obtain ⟨k, rfl⟩ : ∃ k, m' = k + 1 := ⟨m' - 1, by omega⟩
        rw [View.flatten_map_array, chunks_flatten (Nat.pos_of_ne_zero hsize)]
        exact h k (by omega)
      exact ih hopened m (by omega)

/-- Elements that are no records report no reference. -/
theorem references_arrayElements {t : CType} (nested : Nested) (offset length : Nat)
    (access : String) (hstruct : d.registry.kindOf t ≠ .struct)
    (hunion : d.registry.kindOf t ≠ .union) :
    (d.arrayElements bytes nested t offset length access).references = [] := by
  unfold arrayElements
  dsimp only
  split
  · rfl
  · refine (Traced.references_bind_of_silent fun size => ?_).trans (Traced.references_ofLayout _)
    split
    · rfl
    · rw [Traced.eachFrom_eq_mapM]
      refine Traced.references_mapM_of_silent (fun i => ?_) _
      split
      · rfl
      · cases hkind : d.registry.kindOf t <;> simp_all [elementView]

/-- Elements that are records come from the decoder for nested records. -/
theorem exists_nested_of_mem_elements {nested : Nested} {t : CType} {offset length : Nat}
    {access : String} {elements : List View}
    (hkind : d.registry.kindOf t = .struct ∨ d.registry.kindOf t = .union)
    (h : (d.arrayElements bytes nested t offset length access).outcome = .ok elements) {v : View}
    (hv : v ∈ elements) : ∃ place path, (nested t place path).outcome = .ok v := by
  unfold arrayElements at h
  dsimp only at h
  split at h
  · cases h
  · obtain ⟨size, -, h⟩ := Traced.outcome_bind_eq_ok_iff.1 h
    split at h
    · cases h
    · rw [Traced.eachFrom_eq_mapM] at h
      obtain ⟨i, -, hi⟩ := Traced.exists_step_of_mem h hv
      split at hi
      · cases hi
      · rcases hkind with hkind | hkind
        all_goals
          rw [hkind] at hi
          exact ⟨_, _, hi⟩

/-- **Accounted records.** What decodes nested records accounts for the slots of each of them, and
makes no array of it. -/
structure NestedAccounted (d : Decoder) (bytes : Bytes) (nested : Nested)
    (slots : CType → Nat → String → Option (List PointerSlot))
    (pointers : CType → View → List View) : Prop where
  accounted : ∀ t offset access,
    d.Accounted bytes (nested t offset access) (slots t offset access) (pointers t)
  ne_array : ∀ {t offset access view}, (nested t offset access).outcome = .ok view →
    ∀ elements, view ≠ .array elements

section Nested

variable {nested : Nested} {nestedSlots : CType → Nat → String → Option (List PointerSlot)}
  {nestedPointers : CType → View → List View}
  (hnested : d.NestedAccounted bytes nested nestedSlots nestedPointers)

include hnested

/-- Elements account for the slots of the records among them. -/
theorem accounted_arrayElements (t : CType) (offset length : Nat) (access : String) :
    d.Accounted bytes (d.arrayElements bytes nested t offset length access)
      (d.elementSlots nestedSlots t offset length access) (d.elementPointers nestedPointers t) := by
  by_cases hplain : d.registry.kindOf t ≠ .struct ∧ d.registry.kindOf t ≠ .union
  · -- elements that are no records have no slots and report nothing
    have hslots : d.elementSlots nestedSlots t offset length access = some [] := by
      unfold elementSlots
      split <;> simp_all
    have hpointers : d.elementPointers nestedPointers t = fun _ => [] := by
      unfold elementPointers
      split <;> simp_all
    rw [hslots, hpointers]
    exact accounted_of_silent (references_arrayElements _ _ _ _ hplain.1 hplain.2) fun _ _ => rfl
  have hkind : d.registry.kindOf t = .struct ∨ d.registry.kindOf t = .union := by
    tauto
  unfold arrayElements
  dsimp only
  split
  · exact accounted_fail _ _ _
  · refine accounted_bind (Traced.references_ofLayout _) fun size hsize => ?_
    rw [Traced.outcome_ofLayout_eq_ok_iff] at hsize
    split
    · exact accounted_fail _ _ _
    · rw [Traced.eachFrom_eq_mapM]
      unfold elementSlots elementPointers
      rw [hsize]
      rcases hkind with hkind | hkind
      all_goals
        rw [hkind]
        dsimp only
        rw [List.range_eq_range']
        refine accounted_mapM_of_uniform fun i _ => ?_
        split
        · exact accounted_fail _ _ _
        · next place hplace =>
          -- no overflow: the element lies where its slots are looked for
          obtain ⟨step, hstep, hplace⟩ := Option.bind_eq_some_iff.1 hplace
          obtain ⟨-, rfl⟩ := Word.mul?_eq_some_iff.1 hstep
          obtain ⟨-, rfl⟩ := Word.add?_eq_some_iff.1 hplace
          exact hnested.accounted t _ _

/-- An array opened as often as it has levels shows its elements. -/
theorem accounted_arrayView (t : CType) (offset length : Nat) (access : String) :
    d.Accounted bytes (d.arrayView bytes nested t offset length access)
      (d.elementSlots nestedSlots t offset length access)
      fun view => d.elementPointers nestedPointers t (View.flatten 1 [view]) := by
  refine (accounted_arrayElements hnested t offset length access).bind (fun _ => rfl) ?_
  intro elements view _ hview
  cases hview
  rw [View.flatten_array]
  rfl

/-- Opening all levels of grouped elements gives back the row. -/
theorem accounted_nestedArrayView (usage : Usage) (t : CType) (hlevels : 0 < t.dimension)
    (offset length : Nat) (access : String) :
    d.Accounted bytes (d.nestedArrayView bytes nested usage t offset length access)
      (d.elementSlots nestedSlots t.baseType offset length access)
      fun view => d.elementPointers nestedPointers t.baseType
        (View.flatten t.dimension [view]) := by
  refine (accounted_arrayElements hnested t.baseType offset length access).bind (fun _ => rfl) ?_
  intro elements view helements hview
  cases hview
  unfold elementPointers
  cases hkind : d.registry.kindOf t.baseType <;> dsimp only
  case struct | union =>
    -- records are no arrays, so opening arrays stops at them
    have hstay : ∀ m, 0 ≤ m → View.flatten m elements = elements := by
      intro m _
      refine View.flatten_of_plain (fun v hv => ?_) m
      obtain ⟨place, path, hnest⟩ := exists_nested_of_mem_elements (by simp [hkind]) helements hv
      exact hnested.ne_array hnest
    -- the outermost array was made last, and the lengths of the others are at most as many
    have hlengths := t.length_arrayLengths_le usage
    obtain ⟨k, hk⟩ : ∃ k, t.dimension = k + 1 := ⟨t.dimension - 1, by omega⟩
    have hsizes : 0 + ((t.arrayLengths usage).drop 1).reverse.length ≤ k := by
      rw [List.length_reverse, List.length_drop]
      omega
    rw [hk, View.flatten_array, flatten_group hstay k hsizes]

/-! ### Members -/

/-- A member that is an array accounts for its elements, unless it is one over pointers. -/
theorem accounted_arrayFieldView (usage : Usage) {t : CType} (ht : d.registry.kindOf t = .array)
    (offset : Nat) (access : String) :
    d.Accounted bytes (d.arrayFieldView bytes usage nested t offset access)
      (match allArrays t, d.registry.sizeOf t with
        | true, .ok size => d.elementSlots nestedSlots t.baseType offset size access
        | _, _ => some [])
      fun view =>
        if allArrays t then
          d.elementPointers nestedPointers t.baseType (View.flatten t.dimension [view])
        else [] := by
  unfold arrayFieldView
  refine accounted_bind (Traced.references_ofLayout _) fun size hsize => ?_
  rw [Traced.outcome_ofLayout_eq_ok_iff] at hsize
  obtain ⟨n, inner, hlevels⟩ := Registry.kindOf_eq_array_iff.1 ht
  rw [hsize]
  split
  · next hone =>
    -- the only level is the array, which is read element by element
    have hinner : inner = [] := by
      rw [CType.dimension, hlevels, List.length_cons] at hone
      exact List.eq_nil_of_length_eq_zero (by omega)
    have harrays : allArrays t = true := by
      rw [allArrays, hlevels, hinner]
      rfl
    have hbase : t.baseType = t.pointee := by rw [CType.baseType, hone, CType.pointee]
    simp only [harrays, hbase, hone]
    exact accounted_arrayView hnested t.pointee offset size access
  · split
    · next harrays =>
      -- the elements of all arrays lie in a row
      simp only [harrays]
      refine accounted_nestedArrayView hnested usage t ?_ offset size access
      rw [CType.dimension, hlevels]
      exact Nat.succ_pos _
    · next harrays =>
      -- an array of arrays of pointers is left null
      simp only [harrays]
      exact accounted_of_silent rfl fun _ _ => rfl

/-- A member of a structure accounts for its slots. -/
theorem accounted_fieldView (usage : Usage) (record : Record) (f : Field) (base : Nat)
    (access : String) :
    d.Accounted bytes (d.fieldView bytes usage nested record f base access)
      (d.memberSlots nestedSlots .struct base access f)
      (d.memberPointers nestedPointers .struct f) := by
  unfold fieldView
  split
  · exact accounted_fail _ _ _
  · next offset hoffset =>
    obtain ⟨-, rfl⟩ := Word.add?_eq_some_iff.1 hoffset
    unfold memberSlots memberPointers
    cases hkind : d.registry.kindOf f.type <;> dsimp only
    case primitive =>
      split
      · exact accounted_fail _ _ _
      · split
        · exact accounted_of_silent (references_bitFieldView _ _ _) fun _ _ => rfl
        · exact accounted_of_silent (references_primitiveView _ _) fun _ _ => rfl
    case struct | union => exact hnested.accounted _ _ _
    case enumeration => exact accounted_of_silent (references_enumerationView _ _) fun _ _ => rfl
    case array => exact accounted_arrayFieldView hnested usage hkind _ _
    case objectPointer => exact accounted_pointerView _ _ _
    case functionPointer => exact accounted_of_silent rfl fun _ _ => rfl
    case unknown => exact accounted_fail _ _ _

/-- A member of a union accounts for its slots, of which a pointer has none. -/
theorem accounted_unionMemberView (usage : Usage) (record : Record) (f : Field) (base : Nat)
    (access : String) :
    d.Accounted bytes (d.unionMemberView bytes usage nested record f base access)
      (d.memberSlots nestedSlots .union base access f)
      (d.memberPointers nestedPointers .union f) := by
  -- all but a pointer is read as in a structure
  have hfield := accounted_fieldView hnested usage record f base access
  unfold unionMemberView
  unfold memberSlots memberPointers at hfield ⊢
  cases hkind : d.registry.kindOf f.type <;> simp only [hkind] at hfield ⊢
  case objectPointer => exact accounted_of_silent rfl fun _ _ => rfl
  all_goals exact hfield

end Nested

/-- Members in a row account for their slots in a row. -/
theorem accounted_membersView {member : Field → Traced View}
    {slots : Field → Option (List PointerSlot)} {pointers : Field → View → List View}
    (fields : List Field) (h : ∀ f, d.Accounted bytes (member f) (slots f) (pointers f)) :
    d.Accounted bytes (membersView member fields) (joined (fields.map slots))
      fun named => (fields.zip (named.map (·.2))).flatMap fun p => pointers p.1 p.2 := by
  have hnamed : ∀ f ∈ fields,
      d.Accounted bytes (member f >>= fun view => pure (f.name, view)) (slots f)
        fun named => pointers f named.2 := by
    intro f _
    refine (h f).bind (fun _ => rfl) ?_
    intro view named _ heq
    cases heq
    rfl
  intro named hok
  obtain ⟨found, hslots, hrefs, hviews, hwithin⟩ := accounted_mapM hnamed named hok
  refine ⟨found, hslots, hrefs, ?_, hwithin⟩
  change (fields.zip (named.map (·.2))).flatMap (fun p => pointers p.1 p.2) = _
  rw [← hviews, List.zip_map_right, List.flatMap_map]
  rfl

/-! ### Records -/

/-- The raw bytes of a record report no reference. -/
theorem references_rawBytesView (nested : Nested) (offset size : Nat) :
    (d.rawBytesView bytes nested offset size).references = [] := by
  have hkind : d.registry.kindOf .rawByte = .primitive := rfl
  refine (Traced.references_bind_of_silent fun _ => rfl).trans ?_
  exact references_arrayElements nested offset size "" (by simp [hkind]) (by simp [hkind])

/-- A structure has the views of its members, whatever literal stands for the whole of it. -/
theorem exists_of_structView {usage : Usage} {nested : Nested} {record : Record} {offset : Nat}
    {access : String} {v : View}
    (h : (d.structView bytes usage nested record offset access).outcome = .ok v) :
    ∃ fields override,
      (membersView (fun f => d.fieldView bytes usage nested record f offset access)
        record.fields).outcome = .ok fields ∧
      v = .struct (identifier record.name) fields record.isAggregate override := by
  obtain ⟨fields, hfields, h⟩ := Traced.outcome_bind_eq_ok_iff.1 h
  dsimp only at h
  split at h
  · obtain ⟨raw, -, h⟩ := Traced.outcome_bind_eq_ok_iff.1 h
    cases h
    exact ⟨fields, _, hfields, rfl⟩
  · cases h
    exact ⟨fields, _, hfields, rfl⟩

/-- A structure reports what its members report. -/
theorem references_structView (usage : Usage) (nested : Nested) (record : Record) (offset : Nat)
    (access : String) :
    (d.structView bytes usage nested record offset access).references =
      (membersView (fun f => d.fieldView bytes usage nested record f offset access)
        record.fields).references := by
  refine Traced.references_bind_of_silent fun fields => ?_
  dsimp only
  split
  · exact (Traced.references_bind_of_silent fun _ => rfl).trans (references_rawBytesView _ _ _)
  · rfl

/-- What a record is decoded to is no array. -/
theorem ne_array_of_recordView {usage : Usage} {levels : Nat} {t : CType} {offset : Nat}
    {access : String} {v : View}
    (h : (d.recordView bytes usage levels t offset access).outcome = .ok v)
    (elements : List View) : v ≠ .array elements := by
  rintro rfl
  cases levels with
  | zero => cases h
  | succ levels =>
    obtain ⟨record, -, h⟩ := Traced.outcome_bind_eq_ok_iff.1 h
    split at h
    · obtain ⟨fields, override, -, hview⟩ := exists_of_structView h
      cases hview
    · obtain ⟨raw, -, h⟩ := Traced.outcome_bind_eq_ok_iff.1 h
      obtain ⟨members, -, h⟩ := Traced.outcome_bind_eq_ok_iff.1 h
      cases h

/-- **Records** account for their slots, however deep they are nested. -/
theorem accounted_recordView (usage : Usage) (levels : Nat) (t : CType) (offset : Nat)
    (access : String) :
    d.Accounted bytes (d.recordView bytes usage levels t offset access)
      (d.recordSlots levels t offset access) (d.recordPointers levels t) := by
  induction levels generalizing t offset access with
  | zero => exact accounted_fail _ _ _
  | succ levels ih =>
    -- the decoder for the records nested in this one accounts for them
    have hnested : d.NestedAccounted bytes (d.recordView bytes usage levels)
        (d.recordSlots levels) (d.recordPointers levels) := ⟨ih, ne_array_of_recordView⟩
    refine accounted_bind (Traced.references_ofLayout _) fun record hrecord => ?_
    rw [Traced.outcome_ofLayout_eq_ok_iff] at hrecord
    simp only [recordSlots, hrecord]
    cases hkind : record.kind with
    | struct =>
      have hmembers := accounted_membersView record.fields fun f =>
        accounted_fieldView hnested usage record f offset access
      -- what stands for a structure with an anonymous member reports nothing
      intro view hview
      obtain ⟨fields, override, hfields, rfl⟩ := exists_of_structView hview
      obtain ⟨found, hslots, hrefs, hviews, hwithin⟩ := hmembers fields hfields
      refine ⟨found, hslots, (references_structView ..).trans hrefs, ?_, hwithin⟩
      simp only [recordPointers, hrecord, hkind, View.children]
      exact hviews
    | union =>
      have hmembers := accounted_membersView record.fields fun f =>
        accounted_unionMemberView hnested usage record f offset access
      -- the raw bytes of the union come first, and hold no slot
      refine accounted_bind (references_rawBytesView _ _ _) fun raw _ => ?_
      refine hmembers.bind (fun _ => rfl) ?_
      intro members view _ hview
      cases hview
      simp only [recordPointers, hrecord, hkind, View.children]

/-! ### Buffers -/

/-- **Rows over the whole buffer** account for the slots of their elements. -/
theorem accounted_sequenceView (usage : Usage) {t : CType} (hlevels : 0 < t.dimension)
    (name : String) :
    d.Accounted bytes (d.sequenceView bytes t usage name)
      (d.sequenceSlots t usage bytes.length name)
      fun view =>
        d.elementPointers (d.recordPointers d.config.maxDepth) t.baseType
          (View.flatten t.dimension [view]) := by
  -- records are met within elements, at all levels that are allowed
  have hnested : d.NestedAccounted bytes (d.recordView bytes usage d.config.maxDepth)
      (d.recordSlots d.config.maxDepth) (d.recordPointers d.config.maxDepth) :=
    ⟨accounted_recordView usage d.config.maxDepth, ne_array_of_recordView⟩
  unfold sequenceView sequenceSlots
  dsimp only
  split
  · exact accounted_nestedArrayView hnested usage t hlevels 0 bytes.length name
  · next hone =>
    refine accounted_bind (Traced.references_ofLayout _) fun counted hcounted => ?_
    rw [Traced.outcome_ofLayout_eq_ok_iff] at hcounted
    have hdimension : t.dimension = 1 := by omega
    have hbase : t.baseType = t.pointee := by rw [CType.baseType, hdimension, CType.pointee]
    simp only [hcounted, hbase, hdimension]
    exact accounted_arrayView hnested t.pointee 0 counted name

/-- **Decoding** accounts for the slots of the type. -/
theorem accounted_decode (bytes : Bytes) (t : CType) (usage : Usage) (name : String) :
    d.Accounted bytes (d.decode bytes t usage name) (d.slots t usage bytes.length name)
      (d.pointers t usage) := by
  unfold decode slots pointers
  cases hkind : d.registry.kindOf t <;> dsimp only
  case primitive => exact accounted_of_silent (references_primitiveView _ _) fun _ _ => rfl
  case struct | union => exact accounted_recordView usage d.config.maxDepth t 0 name
  case enumeration => exact accounted_of_silent (references_enumerationView _ _) fun _ _ => rfl
  case functionPointer => exact accounted_of_silent rfl fun _ _ => rfl
  case unknown => exact accounted_fail _ _ _
  case array =>
    obtain ⟨n, inner, hlevels⟩ := Registry.kindOf_eq_array_iff.1 hkind
    refine accounted_sequenceView usage ?_ name
    rw [CType.dimension, hlevels]
    exact Nat.succ_pos _
  case objectPointer =>
    have hpointer : t.isObjectPointer = true := Registry.kindOf_eq_objectPointer_iff.1 hkind
    have hlevels : 0 < t.dimension := by
      rw [CType.dimension]
      refine List.length_pos_of_ne_nil fun hnil => ?_
      rw [CType.isObjectPointer, hnil] at hpointer
      cases hpointer
    by_cases hlazy : usage = .lazy
    · -- an object found by following pointers is not followed further
      simp only [hlazy, if_true]
      exact accounted_pointerView t 0 name
    · by_cases htext : t.isCString = true
      · simp only [hlazy, htext, if_true, if_false]
        exact accounted_of_silent rfl fun _ _ => rfl
      · simp only [hlazy, htext, if_false]
        exact accounted_sequenceView usage hlevels name

/-! ### Null pointers -/

/-- Only the address zero is shown as null. -/
theorem address_eq_null_iff (value : Nat) (base : String) (dimension : Nat) :
    Literal.address value base dimension = Literal.null ↔ value = 0 := by
  unfold Literal.address
  split
  · next hzero => simp [hzero]
  · next hzero =>
    refine iff_of_false (fun heq => ?_) hzero
    -- the cast opens with a parenthesis
    have hfirst := congrArg (fun text : String => text.toList.head?) heq
    simp [Literal.referenceCast, Literal.null, toString] at hfirst

/-- **Every pointer is accounted for.** If a buffer is decoded, then the references reported so far
are followed by those of the slots of its type, one for each slot whose stored address is known and
in the order of the slots. At the slots the value is null where the address is known, and else shows
the address, so that it is null without a reference only if the address is. -/
theorem pointers_accounted {α : Type} {before : Traced α} {a : α}
    (hbefore : before.outcome = .ok a) {t : CType} {usage : Usage} {name : String} {view : View}
    (h : (d.decode bytes t usage name).outcome = .ok view) :
    ∃ found, d.slots t usage bytes.length name = some found ∧
      (before >>= fun _ => d.decode bytes t usage name).references =
        before.references ++ found.filterMap (d.referenceAt bytes) ∧
      d.pointers t usage view = found.map (d.slotView bytes) ∧
      ∀ slot ∈ found, slot.offset + d.registry.pointerSize ≤ bytes.length ∧
        (d.slotView bytes slot = .primitive Literal.null → d.referenceAt bytes slot = none →
          d.storedAddress bytes slot = 0) := by
  obtain ⟨found, hslots, hrefs, hviews, hwithin⟩ := accounted_decode bytes t usage name view h
  refine ⟨found, hslots, ?_, hviews, fun slot hslot => ⟨hwithin slot hslot, ?_⟩⟩
  · rw [Traced.references_bind_of_ok hbefore, hrefs]
  · intro hnull hsilent
    -- without a reference the view shows the address
    rw [referenceAt, Option.map_eq_none_iff] at hsilent
    rw [slotView, hsilent] at hnull
    simp only [View.primitive.injEq] at hnull
    exact (address_eq_null_iff _ _ _).1 hnull

/-- A list node: a value and a pointer to the next node. -/
def nodeRecord : Record where
  name := "node"
  kind := .struct
  size := 16
  fields := [⟨"value", .simple "uint64_t", 0, none, 0⟩,
    ⟨"next", (CType.simple "node").pointer, 8, none, 0⟩]

/-- A decoder that knows list nodes, and one of them by its address. -/
def nodeDecoder : Decoder where
  registry := .ofLists [nodeRecord] [] 8
  table := ⟨[(0x20, "head")]⟩
  method := "sum"

/-- Two nodes, of which the first leads to the known one and the second to another address. -/
def nodePair : Bytes :=
  [7, 0, 0, 0, 0, 0, 0, 0, 0x20, 0, 0, 0, 0, 0, 0, 0,
    9, 0, 0, 0, 0, 0, 0, 0, 0x30, 0, 0, 0, 0, 0, 0, 0]

/-- Of two nodes the known pointer is a reference and null, and the other shows its address. -/
theorem nodePair_pointers_accounted :
    ∃ view,
      (nodeDecoder.decode nodePair ((CType.simple "node").array 2) .parameter "list").outcome =
        .ok view ∧
      (Traced.refer ⟨"first", "head", "(node *)"⟩ >>= fun _ =>
        nodeDecoder.decode nodePair ((CType.simple "node").array 2) .parameter "list").references =
        [⟨"first", "head", "(node *)"⟩, ⟨"list[0].next", "head", "(node *)"⟩] ∧
      nodeDecoder.pointers ((CType.simple "node").array 2) .parameter view =
        [.primitive "NULL", .primitive "(node *) 0x30"] := by
  -- both nodes hold a pointer in their second half
  have hslots : nodeDecoder.slots ((CType.simple "node").array 2) .parameter 32 "list" =
      some [⟨"list[0].next", 8, (CType.simple "node").pointer⟩,
        ⟨"list[1].next", 24, (CType.simple "node").pointer⟩] := rfl
  have hdecode :
      (nodeDecoder.decode nodePair ((CType.simple "node").array 2) .parameter "list").outcome =
        .ok (.array
          [.struct "node" [("value", .primitive "7UL"), ("next", .primitive "NULL")] true none,
            .struct "node" [("value", .primitive "9UL"), ("next", .primitive "(node *) 0x30")]
              true none]) := rfl
  have hbefore : (Traced.refer ⟨"first", "head", "(node *)"⟩).outcome = .ok () := rfl
  obtain ⟨found, hfound, hrefs, hviews, -⟩ := pointers_accounted hbefore hdecode
  obtain rfl := Option.some.inj (hslots.symm.trans hfound)
  exact ⟨_, hdecode, hrefs, hviews⟩

end SymVec.Decoder

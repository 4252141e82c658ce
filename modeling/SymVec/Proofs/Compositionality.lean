import SymVec.Proofs.PointerAccounts
import SymVec.Proofs.Windows

/-!
# Compositionality of decoding

Elements of arrays and members of structures are read where they lie in the buffer of the whole.
What they yield there is what decoding their own bytes yields, under the path of the element or
member: the same view, the same references and the same warnings. For a member its bytes have to be
in the buffer; a structure can be decoded from a buffer that ends in its padding, and then the bytes
of its last member cannot be cut out.

* `Decoder.agrees_element`, `Decoder.agrees_member` — one element, one member;
* `Decoder.decode_compositional` — the elements of an array and the members of a structure;
* `Decoder.exists_truncated_member` — a member whose bytes are not all in the buffer.
-/

namespace SymVec.Decoder

open Traced

variable {d : Decoder} {bytes : Bytes} {usage : Usage}

/-- Whether values of this kind are read from bytes of their own, and are no arrays. -/
def isValueKind : CType.Kind → Bool
  | .primitive | .enumeration | .struct | .union => true
  | _ => false

/-- Whether a member is read from bytes of its type as a value: it is no pointer or function
pointer, no bit field, and no array over pointers. -/
def isWholeMember (d : Decoder) (f : Field) : Bool :=
  match d.registry.kindOf f.type with
  | .objectPointer | .functionPointer => false
  | .array => allArrays f.type
  | _ => !d.registry.readsBits f

/-- **Step for a member** of a structure at the start of the buffer. -/
def memberStep (d : Decoder) (bytes : Bytes) (usage : Usage) (record : Record) (name : String)
    (f : Field) : Traced View :=
  d.fieldView bytes usage (d.recordView bytes usage (d.config.maxDepth - 1)) record f 0 name

/-- What lies within the buffer is cut out and decoded. -/
theorem decodeRange_of_within {first n : Nat} (h : first + n ≤ bytes.length) (t : CType)
    (name : String) :
    d.decodeRange bytes first (first + n) t usage name =
      d.decode (bytes.window first n) t usage name := by
  rw [decodeRange, Nat.add_sub_cancel_left, readBytes_of_within h, pure_bind]

/-! ### Elements -/

/-- A value read where it lies agrees with its bytes decoded on their own. -/
theorem agrees_element {t : CType} (hvalue : isValueKind (d.registry.kindOf t) = true)
    (hwell : d.registry.WellFormed t) {size place levels : Nat}
    (hsize : d.registry.sizeOf t = .ok size) (hin : place + size ≤ bytes.length)
    (hlevels : levels ≤ d.config.maxDepth) (access : String) :
    Agrees
      (d.elementView bytes (d.recordView bytes usage levels) (d.registry.kindOf t) t place access)
      (d.decodeRange bytes place (place + size) t usage access) := by
  have hstart : 0 + size ≤ size := Nat.le_of_eq (Nat.zero_add size)
  -- the window is as long as the value, so the value is read whole in it
  have hread := agrees_elementView hin (agrees_recordView hin usage hlevels) hwell hsize hstart
    access
  rw [Nat.add_zero] at hread
  rw [decodeRange_of_within hin]
  -- a buffer that holds one value is read from its start
  have hdecode : d.decode (bytes.window place size) t usage access =
      d.elementView (bytes.window place size)
        (d.recordView (bytes.window place size) usage d.config.maxDepth) (d.registry.kindOf t) t 0
        access := by
    unfold decode elementView
    cases hkind : d.registry.kindOf t <;> rw [hkind] at hvalue <;> first | rfl | cases hvalue
  rw [hdecode]
  exact hread

/-- **Elements** of an array at the start of the buffer agree with their bytes decoded on their own,
one after another. -/
theorem agrees_elements {t : CType} (hvalue : isValueKind (d.registry.kindOf t) = true)
    (hwell : d.registry.WellFormed t) {size : Nat} (hsize : d.registry.sizeOf t = .ok size)
    (access : String) :
    Agrees
      (d.arrayElements bytes (d.recordView bytes usage d.config.maxDepth) t 0 bytes.length access)
      ((List.range (bytes.length / size)).mapM fun k =>
        d.decodeRange bytes (k * size) ((k + 1) * size) t usage s!"{access}[{k}]") := by
  have helement : d.elementSize t = .ok size := (elementSize_eq_sizeOf d t).trans hsize
  unfold arrayElements
  dsimp only
  split
  · exact agrees_fail _ _
  · rw [ofLayout_bind_of_ok helement]
    split
    · exact agrees_fail _ _
    · rw [eachFrom_eq_mapM, ← List.range_eq_range']
      refine Agrees.mapM fun k hk => ?_
      -- each of the elements lies within the buffer
      have hin : k * size + size ≤ bytes.length := element_within (List.mem_range.1 hk)
      have hend : (k + 1) * size = k * size + size := Nat.succ_mul k size
      cases hplace : (Word.mul? k size).bind (Word.add? 0) with
      | none => exact agrees_fail _ _
      | some place =>
        obtain ⟨-, rfl⟩ := elementPlace_eq_some_iff.1 hplace
        rw [hend, Nat.zero_add]
        exact agrees_element hvalue hwell hsize hin (Nat.le_refl _) _

/-- Elements that are read have a size, and as many are read as fit. -/
theorem exists_of_arrayElements {nested : Nested} {t : CType} {offset length : Nat}
    {access : String} {elements : List View}
    (h : (d.arrayElements bytes nested t offset length access).outcome = .ok elements) :
    ∃ size, d.registry.sizeOf t = .ok size ∧ 0 < size ∧ elements.length = length / size := by
  unfold arrayElements at h
  dsimp only at h
  split at h
  · cases h
  · obtain ⟨size, hsize, h⟩ := outcome_bind_eq_ok_iff.1 h
    rw [outcome_ofLayout_eq_ok_iff, elementSize_eq_sizeOf] at hsize
    split at h
    · cases h
    · next hpos => exact ⟨size, hsize, Nat.pos_of_ne_zero hpos, length_of_eachFrom h⟩

/-- **Step for an element** of a row: at its place, if that is a machine word. -/
def elementStep (d : Decoder) (bytes : Bytes) (nested : Nested) (t : CType)
    (size offset length : Nat) (access : String) (i : Nat) : Traced View :=
  match (Word.mul? i size).bind (Word.add? offset) with
  | none => .fail (.outOfBounds offset length bytes.length)
  | some place => d.elementView bytes nested (d.registry.kindOf t) t place s!"{access}[{i}]"

/-- A row of elements that have a size is the sequence of the steps for them. -/
theorem arrayElements_eq_mapM {nested : Nested} {t : CType} {size : Nat}
    (hkind : isElementKind (d.registry.kindOf t) = true) (hsize : d.registry.sizeOf t = .ok size)
    (hpos : 0 < size) (offset length : Nat) (access : String) :
    d.arrayElements bytes nested t offset length access =
      (List.range (length / size)).mapM
        (d.elementStep bytes nested t size offset length access) := by
  have helement : d.elementSize t = .ok size := (elementSize_eq_sizeOf d t).trans hsize
  unfold arrayElements
  dsimp only
  rw [hkind, if_neg (by decide), ofLayout_bind_of_ok helement, if_neg (Nat.ne_of_gt hpos),
    eachFrom_eq_mapM, ← List.range_eq_range']
  rfl

/-- Only values, function pointers included, are read as elements. -/
theorem isElementKind_of_arrayElements {nested : Nested} {t : CType} {offset length : Nat}
    {access : String} {elements : List View}
    (h : (d.arrayElements bytes nested t offset length access).outcome = .ok elements) :
    isElementKind (d.registry.kindOf t) = true := by
  unfold arrayElements at h
  dsimp only at h
  split at h
  · cases h
  · next hkind => simpa using hkind

/-! ### Members -/

/-- An array that fills the buffer is read as a member of that size would be. -/
theorem sequenceView_eq_arrayFieldView {t : CType} (hkind : d.registry.kindOf t = .array)
    (harrays : allArrays t = true) (hsize : d.registry.sizeOf t = .ok bytes.length)
    (husage : usage.knownSize? = none) (name : String) :
    d.sequenceView bytes t usage name =
      d.arrayFieldView bytes usage (d.recordView bytes usage d.config.maxDepth) t 0 name := by
  obtain ⟨n, inner, hlevels⟩ := Registry.kindOf_eq_array_iff.1 hkind
  have hdimension : t.dimension = inner.length + 1 := by
    rw [CType.dimension, hlevels, List.length_cons]
  -- no count is given, so the elements are as many as the buffer holds
  have hcounted : d.countedLength t.pointee bytes.length usage = .ok bytes.length := by
    rw [countedLength, husage]
  unfold sequenceView arrayFieldView
  dsimp only
  rw [ofLayout_bind_of_ok hsize, ofLayout_bind_of_ok hcounted]
  -- a single level is read as a row, and more than one is grouped
  by_cases hone : t.dimension = 1
  · rw [if_pos hone, if_neg (by omega)]
  · rw [if_neg hone, if_pos harrays, if_pos (by omega)]

/-- **Members.** A member that is read from bytes of its type agrees with these bytes decoded on
their own, if they are in the buffer. -/
theorem agrees_member {record : Record} {f : Field} (hwhole : d.isWholeMember f = true)
    (hwell : d.registry.WellFormed f.type) (husage : usage.knownSize? = none) {size levels : Nat}
    (hsize : d.registry.sizeOf f.type = .ok size) (hin : f.offset + size ≤ bytes.length)
    (hlevels : levels ≤ d.config.maxDepth) (access : String) :
    Agrees (d.fieldView bytes usage (d.recordView bytes usage levels) record f 0 access)
      (d.decodeRange bytes f.offset (f.offset + size) f.type usage (memberAccess access f)) := by
  have hvalue : isValueKind (d.registry.kindOf f.type) = true →
      Agrees
        (d.elementView bytes (d.recordView bytes usage levels) (d.registry.kindOf f.type) f.type
          f.offset (memberAccess access f))
        (d.decodeRange bytes f.offset (f.offset + size) f.type usage (memberAccess access f)) :=
    fun hvalue => agrees_element hvalue hwell hsize hin hlevels _
  unfold fieldView
  cases hplace : Word.add? 0 f.offset with
  | none => exact agrees_fail _ _
  | some place =>
    -- the place within the buffer is that within the structure
    obtain rfl : place = f.offset := by
      obtain ⟨-, rfl⟩ := Word.add?_eq_some_iff.1 hplace
      exact Nat.zero_add _
    unfold isWholeMember at hwhole
    dsimp only
    cases hkind : d.registry.kindOf f.type <;> rw [hkind] at hvalue hwhole <;>
      dsimp only at hwhole ⊢
    -- a bit field would read only some of its bits
    case primitive =>
      obtain ⟨p, hp, -⟩ := Registry.primitive_of_kindOf hkind
      have hbits : f.isBitField p.size = false := by
        simpa [Registry.readsBits_of_primitive hkind hp] using hwhole
      rw [hp]
      dsimp only
      rw [if_neg (by simp [hbits])]
      exact hvalue rfl
    case struct => exact hvalue rfl
    case union => exact hvalue rfl
    case enumeration => exact hvalue rfl
    case array =>
      have hstart : ∀ n, d.registry.sizeOf f.type = .ok n → 0 + n ≤ size := by
        intro n hn
        obtain rfl : size = n := Except.ok.inj (hsize.symm.trans hn)
        exact Nat.le_of_eq (Nat.zero_add size)
      have hread := agrees_arrayFieldView hin (agrees_recordView hin usage hlevels) hkind
        (fun _ => hwell) hstart usage (memberAccess access f)
      -- the window is filled by the array
      have hlength : (bytes.window f.offset size).length = size := Bytes.length_window hin
      rw [Nat.add_zero] at hread
      rw [decodeRange_of_within hin, decode, hkind]
      dsimp only
      rw [sequenceView_eq_arrayFieldView hkind hwhole (by rw [hlength, hsize]) husage]
      exact hread
    case objectPointer => cases hwhole
    case functionPointer => cases hwhole
    case unknown => exact agrees_fail _ _

/-- A member that is read whole has only arrays as levels. -/
theorem allArrays_of_isWholeMember {f : Field} (h : d.isWholeMember f = true) :
    allArrays f.type = true := by
  -- what is neither an array nor a pointer has no levels
  have hbase : ∀ kind, d.registry.kindOf f.type = kind → kind ≠ .array → kind ≠ .objectPointer →
      allArrays f.type = true := by
    intro kind hkind harray hpointer
    rw [allArrays, Registry.levels_of_kindOf hkind harray hpointer]
    rfl
  unfold isWholeMember at h
  cases hkind : d.registry.kindOf f.type <;> rw [hkind] at h
  case array => exact h
  case objectPointer => cases h
  all_goals exact hbase _ hkind (by decide) (by decide)

/-- A member that is read has a size. -/
theorem exists_size_of_memberStep {record : Record} {name : String} {f : Field} {view : View}
    (hwhole : d.isWholeMember f = true)
    (h : (d.memberStep bytes usage record name f).outcome = .ok view) :
    ∃ size, d.registry.sizeOf f.type = .ok size := by
  unfold memberStep fieldView at h
  split at h
  · exact absurd h (outcome_fail_ne_ok _ _)
  dsimp only at h
  unfold isWholeMember at hwhole
  cases hkind : d.registry.kindOf f.type <;> rw [hkind] at h hwhole
  case primitive =>
    obtain ⟨p, -, hsize⟩ := Registry.primitive_of_kindOf hkind
    exact ⟨p.size, hsize⟩
  case struct =>
    obtain ⟨inner, -, hsize⟩ := Registry.IsRecord.exists_record (Or.inl hkind)
    exact ⟨inner.size, hsize⟩
  case union =>
    obtain ⟨inner, -, hsize⟩ := Registry.IsRecord.exists_record (Or.inr hkind)
    exact ⟨inner.size, hsize⟩
  case enumeration =>
    obtain ⟨e, -, hsize⟩ := Registry.enumeration_of_kindOf hkind
    exact ⟨e.size, hsize⟩
  case array =>
    obtain ⟨size, hsize, -⟩ := outcome_bind_eq_ok_iff.1 h
    exact ⟨size, outcome_ofLayout_eq_ok_iff.1 hsize⟩
  case objectPointer => cases hwhole
  case functionPointer => cases hwhole
  case unknown => exact absurd h (outcome_fail_ne_ok _ _)

/-! ### Buffers -/

/-- Whether the buffer of a type holds elements one after another that are grouped no further: the
type has a single level, which is an array or a pointer to values that are stored in the buffer. -/
structure IsRow (d : Decoder) (t : CType) (usage : Usage) : Prop where
  dimension : t.dimension = 1
  stored : d.registry.kindOf t = .array ∨
    d.registry.kindOf t = .objectPointer ∧ usage ≠ .lazy ∧ t.isCString = false

/-- A row is read as one, whatever its outermost level is. -/
theorem IsRow.decode_eq_sequenceView {t : CType} (h : d.IsRow t usage) (name : String) :
    d.decode bytes t usage name = d.sequenceView bytes t usage name := by
  rw [decode]
  rcases h.stored with hkind | ⟨hkind, hlazy, htext⟩
  · rw [hkind]
  · rw [hkind]
    dsimp only
    rw [if_neg hlazy, if_neg (by simp [htext])]

/-- A row is read as an array that takes the counted bytes of the buffer. -/
theorem IsRow.decode_eq_arrayView {t : CType} (h : d.IsRow t usage) {length : Nat}
    (hcounted : d.countedLength t.pointee bytes.length usage = .ok length) (name : String) :
    d.decode bytes t usage name =
      d.arrayView bytes (d.recordView bytes usage d.config.maxDepth) t.pointee 0 length name := by
  have hsingle : ¬1 < t.dimension := by
    rw [h.dimension]
    omega
  rw [h.decode_eq_sequenceView, sequenceView, if_neg hsingle, ofLayout_bind_of_ok hcounted]

/-- A row is read as an array that takes the whole buffer. -/
theorem IsRow.decode_eq {t : CType} (h : d.IsRow t usage) (husage : usage.knownSize? = none)
    (name : String) :
    d.decode bytes t usage name =
      d.arrayView bytes (d.recordView bytes usage d.config.maxDepth) t.pointee 0 bytes.length
        name := by
  apply h.decode_eq_arrayView
  rw [countedLength, husage]

/-- **Elements of a row.** What decoding the buffer yields, if its elements are decoded from their
own bytes. -/
structure RowOf (d : Decoder) (bytes : Bytes) (t : CType) (usage : Usage) (name : String)
    (view : View) (size : Nat) (elements : List View) : Prop where
  sizeOf : d.registry.sizeOf t.pointee = .ok size
  size_pos : 0 < size
  view_eq : view = .array elements
  length_eq : elements.length = bytes.length / size
  /-- The references are those of the elements in their order. -/
  references_eq : (d.decode bytes t usage name).references =
    (List.range elements.length).flatMap fun k =>
      (d.decodeRange bytes (k * size) ((k + 1) * size) t.pointee usage s!"{name}[{k}]").references
  element : ∀ k (hk : k < elements.length),
    (d.decodeRange bytes (k * size) ((k + 1) * size) t.pointee usage s!"{name}[{k}]").outcome =
      .ok elements[k]

/-- A row that is decoded is the row of its decoded elements. -/
theorem exists_rowOf {t : CType} (hrow : d.IsRow t usage)
    (hvalue : isValueKind (d.registry.kindOf t.pointee) = true) (hwell : d.registry.WellFormed t)
    (husage : usage.knownSize? = none) {name : String} {view : View}
    (h : (d.decode bytes t usage name).outcome = .ok view) :
    ∃ size elements, d.RowOf bytes t usage name view size elements := by
  have hread : d.decode bytes t usage name = d.arrayView bytes
      (d.recordView bytes usage d.config.maxDepth) t.pointee 0 bytes.length name :=
    hrow.decode_eq husage name
  rw [hread] at h
  obtain ⟨elements, helements, hview⟩ := outcome_bind_eq_ok_iff.1 h
  obtain ⟨size, hsize, hpos, hlength⟩ := exists_of_arrayElements helements
  have hpointee : d.registry.WellFormed t.pointee := by
    refine hwell.congr ?_
    rw [CType.pointee_of_dimension_one hrow.dimension, CType.baseType_baseType]
  -- the loop over the elements is the row of their decodings
  have hagrees := agrees_elements hvalue hpointee hsize name elements helements
  have hsteps := helements
  rw [← hagrees] at hsteps
  have hstep := outcome_mapM_eq_ok_iff.1 hsteps
  refine ⟨size, elements, hsize, hpos, (Except.ok.inj hview).symm, hlength, ?_, fun k hk => ?_⟩
  · -- grouping the elements into a view reports nothing
    have hsilent : (d.decode bytes t usage name).references = (d.arrayElements bytes
        (d.recordView bytes usage d.config.maxDepth) t.pointee 0 bytes.length name).references := by
      rw [hread]
      exact references_bind_of_silent fun _ => rfl
    rw [hsilent, ← hagrees, references_mapM_of_ok hsteps, ← hstep.length_eq, List.length_range]
  · have hrange : k < (List.range (bytes.length / size)).length := by
      rw [List.length_range, ← hlength]
      exact hk
    have hget := hstep.get hrange hk
    rw [List.get_eq_getElem, List.getElem_range, List.get_eq_getElem] at hget
    exact hget

/-- Members that are decoded in a row are decoded each by itself. -/
theorem members_of_membersView {member : Field → Traced View} {fields : List Field}
    {named : List (String × View)} (h : (membersView member fields).outcome = .ok named) :
    List.Forall₂ (fun f child => child.1 = f.name ∧ (member f).outcome = .ok child.2) fields named ∧
      (membersView member fields).references = fields.flatMap fun f => (member f).references := by
  constructor
  · refine (outcome_mapM_eq_ok_iff.1 h).imp fun f child hchild => ?_
    obtain ⟨view, hview, hpair⟩ := outcome_bind_eq_ok_iff.1 hchild
    obtain rfl : (f.name, view) = child := Except.ok.inj hpair
    exact ⟨rfl, hview⟩
  · refine (references_mapM_of_ok h).trans ?_
    -- putting the name beside the value reports nothing
    congr 1
    funext f
    exact references_bind_of_silent fun _ => rfl

/-- **Members of a structure.** What decoding the buffer yields, if those members that are read
whole are decoded from their own bytes. -/
structure StructOf (d : Decoder) (bytes : Bytes) (t : CType) (usage : Usage) (name : String)
    (view : View) (record : Record) (fields : List (String × View)) : Prop where
  recordOf : d.registry.recordOf t = .ok record
  view_eq : ∃ override, view = .struct (identifier record.name) fields record.isAggregate override
  /-- The members are in the order of their declaration. -/
  members : List.Forall₂
    (fun f child => child.1 = f.name ∧
      (d.memberStep bytes usage record name f).outcome = .ok child.2) record.fields fields
  /-- The references are those of the members in their order. -/
  references_eq : (d.decode bytes t usage name).references =
    record.fields.flatMap fun f => (d.memberStep bytes usage record name f).references
  whole : ∀ f ∈ record.fields, d.isWholeMember f = true →
    ∃ size, d.registry.sizeOf f.type = .ok size ∧
      (f.offset + size ≤ bytes.length →
        d.decodeRange bytes f.offset (f.offset + size) f.type usage (memberAccess name f) =
          d.memberStep bytes usage record name f)

/-- A structure that is decoded is that of its decoded members. -/
theorem exists_structOf {t : CType} (hkind : d.registry.kindOf t = .struct)
    (hwell : d.registry.WellFormed t) (husage : usage.knownSize? = none) {name : String}
    {view : View} (h : (d.decode bytes t usage name).outcome = .ok view) :
    ∃ record fields, d.StructOf bytes t usage name view record fields := by
  obtain ⟨record, hrecord, hstruct⟩ := Registry.recordOf_of_kindOf (Or.inl hkind)
  -- with a limit of zero no record is decoded
  obtain ⟨levels, hlevels⟩ : ∃ levels, d.config.maxDepth = levels + 1 := by
    refine Nat.exists_eq_succ_of_ne_zero fun hzero => ?_
    rw [decode, hkind, hzero] at h
    exact absurd h (outcome_fail_ne_ok _ _)
  -- the whole buffer is read as one structure
  have hdecode : d.decode bytes t usage name =
      d.structView bytes usage (d.recordView bytes usage (d.config.maxDepth - 1)) record 0
        name := by
    rw [decode, hkind, hlevels]
    dsimp only [recordView]
    rw [ofLayout_bind_of_ok hrecord, hstruct.2 hkind, Nat.add_sub_cancel]
  rw [hdecode] at h
  obtain ⟨fields, override, hfields, hview⟩ := exists_of_structView h
  obtain ⟨hmembers, hrefs⟩ := members_of_membersView hfields
  refine ⟨record, fields, hrecord, ⟨override, hview⟩, hmembers, ?_, fun f hf hwhole => ?_⟩
  · rw [hdecode, references_structView]
    exact hrefs
  · -- the member was read, which says that it has a size
    obtain ⟨i, hi, rfl⟩ := List.getElem_of_mem hf
    have hi' : i < fields.length := hmembers.length_eq ▸ hi
    have hstep : (d.memberStep bytes usage record name record.fields[i]).outcome =
        .ok fields[i].2 :=
      (hmembers.get hi hi').2
    obtain ⟨size, hsize⟩ := exists_size_of_memberStep hwhole hstep
    have harrays : allArrays record.fields[i].type = true := allArrays_of_isWholeMember hwhole
    refine ⟨size, hsize, fun hin => ?_⟩
    exact agrees_member hwhole (hwell.member (Or.inl hkind) hrecord hf harrays) husage hsize hin
      (Nat.sub_le _ _) name _ hstep

/-- **Decoding is compositional.** If a buffer is decoded whose layouts are well-formed and whose
element count is not given, then the elements of an array, and of a pointer that is stored as its
elements, are what their own bytes decode to; and so are the members of a structure that are no
pointers, function pointers, bit fields or arrays over pointers, if their bytes are in the buffer.
-/
theorem decode_compositional {t : CType} (hwell : d.registry.WellFormed t)
    (husage : usage.knownSize? = none) {name : String} {view : View}
    (h : (d.decode bytes t usage name).outcome = .ok view) :
    (d.IsRow t usage → isValueKind (d.registry.kindOf t.pointee) = true →
      ∃ size elements, d.RowOf bytes t usage name view size elements) ∧
    (d.registry.kindOf t = .struct →
      ∃ record fields, d.StructOf bytes t usage name view record fields) :=
  ⟨fun hrow hvalue => exists_rowOf hrow hvalue hwell husage h,
    fun hkind => exists_structOf hkind hwell husage h⟩

/-- A cell: a byte, and a byte of padding. -/
def cellRecord : Record where
  name := "cell"
  kind := .struct
  size := 2
  fields := [⟨"a", .simple "uint8_t", 0, none, 0⟩]

/-- A box: a byte and a cell. -/
def boxRecord : Record where
  name := "box"
  kind := .struct
  size := 3
  fields := [⟨"x", .simple "uint8_t", 0, none, 0⟩, ⟨"s", .simple "cell", 1, none, 0⟩]

/-- A decoder that knows cells and boxes. -/
def boxDecoder : Decoder where
  registry := .ofLists [cellRecord, boxRecord] [] 8
  method := "open"

/-- Each part of a box lies within it. -/
theorem wellFormed_box : boxDecoder.registry.WellFormed (.simple "box") :=
  Registry.wellFormed_of_fits
    [(.simple "box", 2), (.simple "cell", 1), (.simple "uint8_t", 0)] 2 (by decide) (by decide)

theorem wellFormed_nodes : nodeDecoder.registry.WellFormed ((CType.simple "node").array 2) :=
  Registry.wellFormed_of_fits
    [(.simple "node", 1), (.simple "uint64_t", 0)] 1 (by decide) (by decide)

/-- The view of a box and of the cell in it. -/
def boxView (x : String) (cell : View) : View :=
  .struct "box" [("x", .primitive x), ("s", cell)] true none

/-- The view of a cell alone. -/
def cellView (a : String) : View := .struct "cell" [("a", .primitive a)] true none

/-- The second of two nodes, and the cell in a box that is all there. -/
theorem parts_decode_compositional :
    (nodeDecoder.decodeRange nodePair 16 32 (.simple "node") .parameter "list[1]").outcome =
        .ok (.struct "node" [("value", .primitive "9UL"), ("next", .primitive "(node *) 0x30")]
          true none) ∧
      (boxDecoder.decodeRange [1, 2, 0] 1 3 (.simple "cell") .parameter "b.s").outcome =
        .ok (cellView "2") := by
  have hnodes :
      (nodeDecoder.decode nodePair ((CType.simple "node").array 2) .parameter "list").outcome =
        .ok (.array
          [.struct "node" [("value", .primitive "7UL"), ("next", .primitive "NULL")] true none,
            .struct "node" [("value", .primitive "9UL"), ("next", .primitive "(node *) 0x30")]
              true none]) := rfl
  have hbox : (boxDecoder.decode [1, 2, 0] (.simple "box") .parameter "b").outcome =
      .ok (boxView "1" (cellView "2")) := rfl
  constructor
  · have hrow : nodeDecoder.IsRow ((CType.simple "node").array 2) .parameter :=
      ⟨rfl, Or.inl rfl⟩
    obtain ⟨size, elements, hparts⟩ :=
      (decode_compositional wellFormed_nodes rfl hnodes).1 hrow rfl
    -- a node takes 16 bytes, so the second one starts there
    obtain rfl : 16 = size := Except.ok.inj hparts.sizeOf
    obtain rfl := View.array.inj hparts.view_eq
    exact hparts.element 1 (by decide)
  · obtain ⟨record, fields, hparts⟩ := (decode_compositional wellFormed_box rfl hbox).2 rfl
    obtain rfl : boxRecord = record := Except.ok.inj hparts.recordOf
    obtain ⟨size, hsize, hcell⟩ := hparts.whole ⟨"s", .simple "cell", 1, none, 0⟩ (by decide) rfl
    obtain rfl : 2 = size := Except.ok.inj hsize
    have hsame := hcell (by decide)
    exact congrArg Traced.outcome hsame

/-- **A member that is not all there.** A box is decoded from a buffer without the padding of its
cell, but the bytes of the cell are not in the buffer and cannot be decoded on their own. -/
theorem exists_truncated_member :
    boxDecoder.registry.WellFormed (.simple "box") ∧
      (boxDecoder.decode [1, 2] (.simple "box") .parameter "b").outcome =
        .ok (boxView "1" (cellView "2")) ∧
      boxDecoder.registry.recordOf (.simple "box") = .ok boxRecord ∧
      ∃ f ∈ boxRecord.fields, boxDecoder.isWholeMember f = true ∧
        boxDecoder.registry.sizeOf f.type = .ok 2 ∧
        (boxDecoder.memberStep [1, 2] .parameter boxRecord "b" f).outcome = .ok (cellView "2") ∧
        (boxDecoder.decodeRange [1, 2] f.offset (f.offset + 2) f.type .parameter "b.s").outcome =
          .error (.outOfBounds 1 2 2) :=
  ⟨wellFormed_box, rfl, rfl, ⟨"s", .simple "cell", 1, none, 0⟩, by decide, rfl, rfl, rfl, rfl⟩

end SymVec.Decoder

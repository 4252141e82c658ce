import SymVec.Decoder.Record

/-!
# Layouts of values

A value of a record type has parts: its members that are stored in it by value, through any number
of arrays, and the parts of those that are records again. What a pointer leads to is no part. A type
is *well-formed* if each record among its parts has a size and holds its members.

* `Registry.Part` — the parts of a value, by how many records they are nested in;
* `Registry.memberLength` — the bytes that reading a member takes;
* `Registry.WellFormed` — layouts in which every record holds its members;
* `Registry.Part.trans` — the parts of a part are parts;
* `Registry.wellFormed_of_fits` — well-formed layouts by a check of finitely many types.
-/

namespace SymVec

namespace CType

/-- Taking off all levels of a type that has none changes nothing. -/
theorem baseType_of_levels_nil {t : CType} (h : t.levels = []) : t.baseType = t := by
  rcases t with ⟨name, levels, isFunction, maybeArray⟩
  obtain rfl : levels = [] := h
  rfl

@[simp]
theorem baseType_baseType (t : CType) : t.baseType.baseType = t.baseType :=
  baseType_of_levels_nil (levels_baseType t)

/-- With a single level, what lies under it is the base type. -/
theorem pointee_of_dimension_one {t : CType} (h : t.dimension = 1) : t.pointee = t.baseType := by
  rw [baseType, h, pointee]

/-- A type is primitive by its base name. -/
theorem find?_of_primitive? {t : CType} {p : Primitive} (h : t.primitive? = some p) :
    Primitive.find? t.baseName = some p := by
  rw [primitive?] at h
  split at h
  · cases h
  · exact h

end CType

/-- A primitive value takes a byte at least, and a word at most. -/
theorem Primitive.size_bounds {name : String} {p : Primitive} (h : find? name = some p) :
    0 < p.size ∧ p.size ≤ 8 := by
  have hmem := size_mem h
  simp only [List.mem_cons, List.not_mem_nil, or_false] at hmem
  omega

/-- Only a member with a width is a bit field. -/
theorem Field.exists_width_of_isBitField {f : Field} {typeSize : Nat}
    (h : f.isBitField typeSize = true) : ∃ width, f.bitSize = some width := by
  rw [isBitField] at h
  split at h
  · next width hwidth => exact ⟨width, hwidth⟩
  · cases h

/-- A primitive member that is declared with a width and yet is no bit field has at least the bits
of its type, from the first on. -/
theorem Field.whole_of_not_isBitField {f : Field} {p : Primitive} {name : String} {width : Nat}
    (hp : Primitive.find? name = some p) (hwidth : f.bitSize = some width)
    (h : ¬f.isBitField p.size = true) : 8 * p.size ≤ width ∧ f.bitOffset = 0 := by
  have hsize : p.size ≤ 8 := (Primitive.size_bounds hp).2
  rw [isBitField, hwidth, Word.mulSaturating_of_lt (by omega), Nat.mul_comm] at h
  simpa using h

namespace Registry

variable {r : Registry} {t u w : CType} {record : Record} {f : Field} {depth : Nat}

/-! ### Kinds and sizes -/

/-- Whether values of the type are structures or unions. -/
def IsRecord (r : Registry) (t : CType) : Prop :=
  r.kindOf t = .struct ∨ r.kindOf t = .union

/-- A type that is neither an array nor a pointer has no levels. -/
theorem levels_of_kindOf {kind : CType.Kind} (h : r.kindOf t = kind) (harray : kind ≠ .array)
    (hpointer : kind ≠ .objectPointer) : t.levels = [] := by
  subst h
  match hlevels : t.levels with
  | [] => rfl
  | .pointer :: _ => exact absurd (by rw [kindOf, hlevels]) hpointer
  | .array _ :: _ => exact absurd (by rw [kindOf, hlevels]) harray

theorem IsRecord.levels (h : r.IsRecord t) : t.levels = [] := by
  rcases h with h | h <;> exact levels_of_kindOf h (by decide) (by decide)

theorem IsRecord.ne_objectPointer (h : r.IsRecord t) : r.kindOf t ≠ .objectPointer := by
  rcases h with h | h <;> simp [h]

theorem IsRecord.ne_array (h : r.IsRecord t) : r.kindOf t ≠ .array := by
  rcases h with h | h <;> simp [h]

/-- **Base types.** What a type without levels is, and how large its values are. -/
theorem base_cases (r : Registry) (hlevels : t.levels = []) :
    (t.isFunction = true ∧ r.kindOf t = .functionPointer ∧ r.sizeOf t = .ok r.pointerSize) ∨
    (∃ p, t.primitive? = some p ∧ r.kindOf t = .primitive ∧ r.sizeOf t = .ok p.size) ∨
    (∃ record, r.recordOf t = .ok record ∧ r.IsRecord t ∧ r.sizeOf t = .ok record.size) ∨
    (∃ e, r.enumerationOf t = .ok e ∧ r.kindOf t = .enumeration ∧ r.sizeOf t = .ok e.size) ∨
    (r.kindOf t = .unknown ∧ ∃ e, r.sizeOf t = .error e) := by
  have hsize : r.sizeOf t = r.baseSize t := by rw [sizeOf, hlevels, sizeUnder]
  have hkind : r.kindOf t = r.baseKind t := by rw [kindOf, hlevels]
  rw [hsize, hkind, baseSize, baseKind]
  -- a function is a pointer, whatever its base name is
  by_cases hfunction : t.isFunction = true
  · exact Or.inl ⟨hfunction, by rw [if_pos hfunction], by rw [if_pos hfunction]⟩
  have hsimple : t.isSimple = true := by simp [CType.isSimple, hlevels, hfunction]
  rw [if_neg hfunction, if_neg hfunction]
  refine Or.inr ?_
  -- primitive types come before records, and records before enumerations
  cases hprimitive : t.primitive? with
  | some p => exact Or.inl ⟨p, rfl, rfl, rfl⟩
  | none =>
    cases hrecord : r.record? t.baseName with
    | some record =>
      refine Or.inr (Or.inl ⟨record, by simp [recordOf, hsimple, hrecord], ?_, rfl⟩)
      rw [IsRecord, hkind, baseKind]
      cases hk : record.kind <;> simp [hfunction, hprimitive, hrecord, hk]
    | none =>
      cases henumeration : r.enumeration? t.baseName with
      | some e =>
        exact Or.inr (Or.inr (Or.inl
          ⟨e, by simp [enumerationOf, hsimple, henumeration], rfl, rfl⟩))
      | none => exact Or.inr (Or.inr (Or.inr ⟨rfl, _, rfl⟩))

/-- A type of kind primitive is a primitive type, and has its size. -/
theorem primitive_of_kindOf (h : r.kindOf t = .primitive) :
    ∃ p, t.primitive? = some p ∧ r.sizeOf t = .ok p.size := by
  have hlevels : t.levels = [] := levels_of_kindOf h (by decide) (by decide)
  simpa [IsRecord, h] using r.base_cases hlevels

/-- A primitive type without levels is primitive for every registry. -/
theorem kindOf_of_primitive? (r : Registry) (hlevels : t.levels = []) {p : Primitive}
    (hp : t.primitive? = some p) : r.kindOf t = .primitive := by
  have hfunction : t.isFunction = false := by
    cases hf : t.isFunction with
    | false => rfl
    | true => simp [CType.primitive?, hf] at hp
  simp [kindOf, hlevels, baseKind, hfunction, hp]

/-- A type of kind enumeration has an enumeration, and its size. -/
theorem enumeration_of_kindOf (h : r.kindOf t = .enumeration) :
    ∃ e, r.enumerationOf t = .ok e ∧ r.sizeOf t = .ok e.size := by
  have hlevels : t.levels = [] := levels_of_kindOf h (by decide) (by decide)
  simpa [IsRecord, h] using r.base_cases hlevels

/-- A structure or union has a record, and its size. -/
theorem IsRecord.exists_record (h : r.IsRecord t) :
    ∃ record, r.recordOf t = .ok record ∧ r.sizeOf t = .ok record.size := by
  have hcases := r.base_cases h.levels
  rcases h with h | h <;> simpa [IsRecord, h] using hcases

/-- The size of a structure or union is that of its record. -/
theorem IsRecord.sizeOf_eq (h : r.IsRecord t) (hof : r.recordOf t = .ok record) :
    r.sizeOf t = .ok record.size := by
  obtain ⟨found, hfound, hsize⟩ := h.exists_record
  obtain rfl : found = record := Except.ok.inj (hfound.symm.trans hof)
  exact hsize

/-- The record of a type is one of those that are known. -/
theorem mem_records_of_recordOf (h : r.recordOf t = .ok record) :
    record ∈ r.records.toList := by
  unfold recordOf at h
  split at h
  · next found hfound =>
    cases h
    split at hfound
    · -- found under the name as it is spelled or without its tag
      rcases Option.or_eq_some_iff.1 hfound with hfound | ⟨-, hfound⟩
      · exact List.mem_of_find?_eq_some hfound
      · exact List.mem_of_find?_eq_some hfound
    · cases hfound
  · cases h

/-- A pointer is the outermost level. -/
theorem levels_of_objectPointer (h : r.kindOf t = .objectPointer) :
    ∃ inner, t.levels = .pointer :: inner := by
  have hpointer := kindOf_eq_objectPointer_iff.1 h
  rw [CType.isObjectPointer] at hpointer
  exact List.head?_eq_some_iff.1 (of_decide_eq_true hpointer)

theorem dimension_pos_of_array (h : r.kindOf t = .array) : 0 < t.dimension := by
  obtain ⟨n, inner, hlevels⟩ := kindOf_eq_array_iff.1 h
  rw [CType.dimension, hlevels]
  exact Nat.succ_pos _

theorem dimension_pos_of_objectPointer (h : r.kindOf t = .objectPointer) : 0 < t.dimension := by
  obtain ⟨inner, hlevels⟩ := levels_of_objectPointer h
  rw [CType.dimension, hlevels]
  exact Nat.succ_pos _

/-- A record is stored by value. -/
theorem IsRecord.allArrays (h : r.IsRecord t) : Decoder.allArrays t = true := by
  rw [Decoder.allArrays, h.levels]
  rfl

/-- What has no pointer among its levels is no pointer. -/
theorem ne_objectPointer_of_allArrays (h : Decoder.allArrays t = true) :
    r.kindOf t ≠ .objectPointer := by
  intro hpointer
  obtain ⟨inner, hlevels⟩ := levels_of_objectPointer hpointer
  rw [Decoder.allArrays, hlevels] at h
  cases h

/-- A pointer has the size of a pointer, whatever it leads to. -/
theorem sizeOf_of_objectPointer (h : r.kindOf t = .objectPointer) :
    r.sizeOf t = .ok r.pointerSize := by
  obtain ⟨inner, hlevels⟩ := levels_of_objectPointer h
  rw [sizeOf, hlevels, sizeUnder]

/-- A type that has a size is known. -/
theorem kindOf_ne_unknown {size : Nat} (h : r.sizeOf t = .ok size) : r.kindOf t ≠ .unknown := by
  intro hunknown
  have hlevels : t.levels = [] := levels_of_kindOf hunknown (by decide) (by decide)
  -- only the last of the cases is of this kind, and there is no size in it
  have hcases := r.base_cases hlevels
  simp [IsRecord, hunknown, h] at hcases

/-! ### Parts -/

/-- **Parts by value.** The base types that occur in a value whose base type is that of `t`, each
with the number of records around it. -/
inductive Part (r : Registry) (t : CType) : Nat → CType → Prop
  /-- The value itself, or each of its elements. -/
  | whole : Part r t 0 t.baseType
  /-- A member of a record, or each element of a member that is an array. What a pointer leads to is
  not stored in the record. -/
  | member {depth : Nat} {u : CType} {record : Record} {f : Field} (outer : Part r t depth u)
      (isRecord : r.IsRecord u) (recordOf : r.recordOf u = .ok record) (mem : f ∈ record.fields)
      (byValue : Decoder.allArrays f.type = true) : Part r t (depth + 1) f.type.baseType

/-- Parts are base types. -/
theorem Part.levels (h : r.Part t depth u) : u.levels = [] := by
  cases h <;> exact CType.levels_baseType _

/-- A record is a part of itself. -/
theorem Part.self_of_isRecord (h : r.IsRecord t) : r.Part t 0 t := by
  have hself : r.Part t 0 t.baseType := Part.whole
  rwa [CType.baseType_of_levels_nil h.levels] at hself

/-- The parts of a part are parts, nested in the records around both. -/
theorem Part.trans {inner : Nat} (h : r.Part t depth u) (hinner : r.Part u inner w) :
    r.Part t (depth + inner) w := by
  induction hinner with
  | whole =>
    rw [CType.baseType_of_levels_nil h.levels]
    exact h
  | member _ isRecord recordOf mem byValue ih =>
    exact Part.member ih isRecord recordOf mem byValue

/-- Parts are those of the base type. -/
theorem part_congr {s : CType} (h : s.baseType = t.baseType) (hpart : r.Part s depth u) :
    r.Part t depth u := by
  induction hpart with
  | whole =>
    rw [h]
    exact Part.whole
  | member _ isRecord recordOf mem byValue ih =>
    exact Part.member ih isRecord recordOf mem byValue

/-- The parts of a member are parts of the record, nested in one record more. -/
theorem Part.of_member (isRecord : r.IsRecord t) (recordOf : r.recordOf t = .ok record)
    (mem : f ∈ record.fields) (byValue : Decoder.allArrays f.type = true)
    (hpart : r.Part f.type depth u) : r.Part t (depth + 1) u := by
  -- the member is a part of the record, and its parts are parts of that part
  have hmember : r.Part t 1 f.type.baseType :=
    Part.member (Part.self_of_isRecord isRecord) isRecord recordOf mem byValue
  have hinner : r.Part f.type.baseType depth u := part_congr (by rw [CType.baseType_baseType]) hpart
  rw [Nat.add_comm]
  exact hmember.trans hinner

/-- A value that is no record has no parts besides itself. -/
theorem Part.eq_of_not_isRecord (hbase : ¬r.IsRecord t.baseType) (h : r.Part t depth u) :
    depth = 0 ∧ u = t.baseType := by
  induction h with
  | whole => exact ⟨rfl, rfl⟩
  | member _ isRecord _ _ _ ih => exact absurd (ih.2 ▸ isRecord) hbase

/-- A set of types that holds the base type and the base types of all members by value holds all
parts, and numbers that grow towards the outside bound how deep they are nested. -/
theorem Part.mem_of_closed {ranked : List (CType × Nat)} {top : Nat}
    (base : (t.baseType, top) ∈ ranked)
    (closed : ∀ p ∈ ranked, r.IsRecord p.1 → ∀ record, r.recordOf p.1 = .ok record →
      ∀ f ∈ record.fields, Decoder.allArrays f.type = true →
        ∃ n < p.2, (f.type.baseType, n) ∈ ranked)
    (h : r.Part t depth u) : ∃ n, depth + n ≤ top ∧ (u, n) ∈ ranked := by
  induction h with
  | whole => exact ⟨top, Nat.le_of_eq (Nat.zero_add top), base⟩
  | member _ isRecord recordOf mem byValue ih =>
    obtain ⟨n, hn, hranked⟩ := ih
    -- one record further in, the number is smaller
    obtain ⟨m, hm, hmember⟩ := closed _ hranked isRecord _ recordOf _ mem byValue
    exact ⟨m, by dsimp only at hm; omega, hmember⟩

/-! ### Well-formed layouts -/

/-- Whether a member is read as a bit field. -/
def readsBits (r : Registry) (f : Field) : Bool :=
  r.kindOf f.type = .primitive && f.type.primitive?.any fun p => f.isBitField p.size

/-- **Bytes of a member.** Those that its bits touch, if it is read as a bit field, and else those
of its type. -/
def memberLength (r : Registry) (f : Field) : Except LayoutError Nat :=
  if r.readsBits f then .ok ((f.bitOffset + f.bitSize.getD 0 + 7) / 8) else r.sizeOf f.type

/-- **Well-formed layouts.** Every record that a value of the type has by value has a size, and its
members lie within it. -/
structure WellFormed (r : Registry) (t : CType) : Prop where
  size_pos : ∀ {depth u record}, r.Part t depth u → r.IsRecord u → r.recordOf u = .ok record →
    0 < record.size
  member_le : ∀ {depth u record f length}, r.Part t depth u → r.IsRecord u →
    r.recordOf u = .ok record → f ∈ record.fields → r.memberLength f = .ok length →
      f.offset + length ≤ record.size

theorem WellFormed.congr {s : CType} (h : r.WellFormed t) (hbase : s.baseType = t.baseType) :
    r.WellFormed s where
  size_pos hpart := h.size_pos (part_congr hbase hpart)
  member_le hpart := h.member_le (part_congr hbase hpart)

/-- What is no record has no members that could lie outside of it. -/
theorem wellFormed_of_not_isRecord (h : ¬r.IsRecord t.baseType) : r.WellFormed t where
  size_pos hpart isRecord := absurd ((hpart.eq_of_not_isRecord h).2 ▸ isRecord) h
  member_le hpart isRecord := absurd ((hpart.eq_of_not_isRecord h).2 ▸ isRecord) h

/-- A raw byte is no record. -/
theorem not_isRecord_rawByte (r : Registry) : ¬r.IsRecord CType.rawByte.baseType := by
  have hkind : r.kindOf CType.rawByte.baseType = .primitive := rfl
  rw [IsRecord, hkind]
  simp

/-- Members by value of a well-formed record are well-formed. -/
theorem WellFormed.member (h : r.WellFormed t) (isRecord : r.IsRecord t)
    (recordOf : r.recordOf t = .ok record) (mem : f ∈ record.fields)
    (byValue : Decoder.allArrays f.type = true) : r.WellFormed f.type where
  size_pos hpart := h.size_pos (hpart.of_member isRecord recordOf mem byValue)
  member_le hpart := h.member_le (hpart.of_member isRecord recordOf mem byValue)

/-- The members of a well-formed record lie within it. -/
theorem WellFormed.member_within (h : r.WellFormed t) (isRecord : r.IsRecord t)
    (recordOf : r.recordOf t = .ok record) (mem : f ∈ record.fields) {length : Nat}
    (hlength : r.memberLength f = .ok length) : f.offset + length ≤ record.size :=
  h.member_le (Part.self_of_isRecord isRecord) isRecord recordOf mem hlength

/-- A primitive member is read as a bit field if it is one for the size of its type. -/
theorem readsBits_of_primitive {p : Primitive} (hkind : r.kindOf f.type = .primitive)
    (hp : f.type.primitive? = some p) : r.readsBits f = f.isBitField p.size := by
  simp [readsBits, hkind, hp]

/-- A member that is no primitive value takes the bytes of its type. -/
theorem memberLength_of_kindOf (h : r.kindOf f.type ≠ .primitive) :
    r.memberLength f = r.sizeOf f.type := by
  rw [memberLength, readsBits]
  simp [h]

/-! ### Checking layouts -/

/-- Whether a record from a list of ranked types has a size and holds its members, and those that it
stores by value are listed with smaller ranks. -/
def fits (r : Registry) (ranked : List (CType × Nat)) (p : CType × Nat) : Bool :=
  match r.recordOf p.1 with
  | .error _ => true
  | .ok record =>
    0 < record.size && record.fields.all fun f =>
      (r.memberLength f).toOption.all (f.offset + · ≤ record.size) &&
        (!Decoder.allArrays f.type || ranked.any fun q => q.1 = f.type.baseType && q.2 < p.2)

/-- What holds for each of the ranked types that fits holds for the parts, and the ranks bound how
deep they are nested. -/
theorem Part.mem_of_fits {ranked : List (CType × Nat)} {top : Nat}
    (base : (t.baseType, top) ∈ ranked) (h : ranked.all (r.fits ranked) = true)
    (hpart : r.Part t depth u) : ∃ n, depth + n ≤ top ∧ (u, n) ∈ ranked := by
  refine hpart.mem_of_closed base fun p hp _ record hrecord f hf byValue => ?_
  -- a listed record fits, so its members by value are listed with smaller ranks
  have hfits : r.fits ranked p = true := List.all_eq_true.1 h p hp
  rw [fits, hrecord] at hfits
  have hmembers := (Bool.and_eq_true_iff.1 hfits).2
  have hmember := List.all_eq_true.1 hmembers f hf
  rw [byValue] at hmember
  obtain ⟨q, hq, hrank⟩ : ∃ q ∈ ranked, q.1 = f.type.baseType ∧ q.2 < p.2 := by
    simpa using (Bool.and_eq_true_iff.1 hmember).2
  exact ⟨q.2, hrank.2, by rw [← hrank.1]; exact hq⟩

/-- **Check.** A list of ranked types that fit and hold the base type shows that it is
well-formed. -/
theorem wellFormed_of_fits (ranked : List (CType × Nat)) (top : Nat)
    (base : (t.baseType, top) ∈ ranked) (h : ranked.all (r.fits ranked) = true) :
    r.WellFormed t where
  size_pos := by
    intro depth u record hpart _ hrecord
    -- a part is listed, and what is listed fits
    obtain ⟨n, -, hu⟩ := hpart.mem_of_fits base h
    have hfits : r.fits ranked (u, n) = true := List.all_eq_true.1 h _ hu
    rw [fits, hrecord] at hfits
    exact of_decide_eq_true (Bool.and_eq_true_iff.1 hfits).1
  member_le := by
    intro depth u record f length hpart _ hrecord hf hlength
    obtain ⟨n, -, hu⟩ := hpart.mem_of_fits base h
    have hfits : r.fits ranked (u, n) = true := List.all_eq_true.1 h _ hu
    rw [fits, hrecord] at hfits
    have hmember := List.all_eq_true.1 (Bool.and_eq_true_iff.1 hfits).2 f hf
    rw [hlength] at hmember
    exact of_decide_eq_true (Bool.and_eq_true_iff.1 hmember).1

end Registry

namespace Decoder

/-! ### Elements -/

/-- The single level of an array is that of the array. -/
theorem allArrays_of_dimension_one {r : Registry} {t : CType} (harray : r.kindOf t = .array)
    (hone : t.dimension = 1) : allArrays t = true := by
  obtain ⟨n, inner, hlevels⟩ := Registry.kindOf_eq_array_iff.1 harray
  -- there is one level, and it is the array
  have hinner : inner = [] := by
    rw [CType.dimension, hlevels, List.length_cons] at hone
    exact List.eq_nil_of_length_eq_zero (by omega)
  rw [allArrays, hlevels, hinner]
  rfl

/-- A `void` is read as a byte, which is its size. -/
theorem elementSize_eq_sizeOf (d : Decoder) (t : CType) :
    d.elementSize t = d.registry.sizeOf t := by
  unfold elementSize
  split
  · next hvoid =>
    obtain ⟨hsimple, hbase⟩ : t.isSimple = true ∧ t.baseIsVoid = true := by
      simpa [CType.isVoid] using hvoid
    obtain ⟨hlevels, hfunction⟩ : t.levels = [] ∧ t.isFunction = false := by
      simpa [CType.isSimple] using hsimple
    have hname : t.baseName = "void" := by
      rw [CType.baseIsVoid, hfunction] at hbase
      simpa using hbase
    -- its size is looked up like that of other primitive types
    have hprimitive : t.primitive? = some ⟨1, .void, false⟩ := by
      rw [CType.primitive?, hfunction, hname]
      rfl
    rw [Registry.sizeOf, hlevels, Registry.sizeUnder, Registry.baseSize, hfunction, hprimitive]
    rfl
  · rfl

/-- Each of the elements that fit into `length` bytes lies within them. -/
theorem element_within {i size length : Nat} (h : i < length / size) :
    i * size + size ≤ length := by
  calc i * size + size = (i + 1) * size := by rw [Nat.add_mul, Nat.one_mul]
    _ ≤ length / size * size := Nat.mul_le_mul_right _ h
    _ ≤ length := Nat.div_mul_le_self length size

/-- An element is found at its place, if this place is a machine word. -/
theorem elementPlace_eq_some_iff {i size offset place : Nat} :
    (Word.mul? i size).bind (Word.add? offset) = some place ↔
      offset + i * size < Word.limit ∧ offset + i * size = place := by
  rw [Option.bind_eq_some_iff]
  constructor
  · rintro ⟨step, hstep, hplace⟩
    obtain ⟨-, rfl⟩ := Word.mul?_eq_some_iff.1 hstep
    exact Word.add?_eq_some_iff.1 hplace
  · rintro ⟨hword, rfl⟩
    -- the product is no larger than the place, which is a word
    have hstep : Word.mul? i size = some (i * size) := Word.mul?_eq_some_iff.2 ⟨by omega, rfl⟩
    exact ⟨i * size, hstep, Word.add?_eq_some_iff.2 ⟨hword, rfl⟩⟩

end Decoder

end SymVec

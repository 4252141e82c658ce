import SymVec.Proofs.Compositionality
import SymVec.Proofs.Progress

/-!
# Padding

What a structure is decoded as depends on the bytes in which its members are stored, and on no
others: neither on the padding between and after the members nor on what the buffer holds behind the
structure. This is said about two buffers at once. If they agree on all *slots*, the runs of bytes
that hold a scalar or the bits of a bit field, then the structure in them is decoded to the same
value or stops with the same error, and it reports the same.

Unions are left out, since their raw bytes are part of their value, and so are structures with
anonymous members, which are rebuilt from theirs. An enumeration is always read whole. One that is
declared as a bit field reads more than its declared bits, and what lies next to them shows.

* `Registry.Slot`, `Registry.SameSlots` — where something is stored, and buffers that agree there;
* `Decoder.recordView_sameSlots` — structures, by induction on how deep they may be nested;
* `Decoder.padding_ignored` — buffers;
* `Decoder.exists_leaking_enumeration` — an enumeration that shows what lies next to its bits.
-/

namespace SymVec

/-- Windows that agree agree on their first bytes. -/
theorem Bytes.window_eq_of_le {bytes bytes' : Bytes} {base length n : Nat}
    (h : bytes.window base length = bytes'.window base length) (hle : n ≤ length) :
    bytes.window base n = bytes'.window base n := by
  have hfirst (buffer : Bytes) : (buffer.window base length).take n = buffer.window base n := by
    rw [window, List.take_take, Nat.min_eq_left hle, window]
  rw [← hfirst bytes, ← hfirst bytes', h]

/-- A primitive value that is declared with a width and yet is no bit field has the bytes that its
declared bits touch, or fewer. -/
theorem Field.size_le_of_not_isBitField {f : Field} {p : Primitive} {name : String} {width : Nat}
    (hp : Primitive.find? name = some p) (hwidth : f.bitSize = some width)
    (h : ¬f.isBitField p.size = true) : p.size ≤ (f.bitOffset + width + 7) / 8 := by
  obtain ⟨hfull, -⟩ := f.whole_of_not_isBitField hp hwidth h
  omega

namespace Registry

variable {r : Registry} {t : CType} {record : Record} {f : Field} {narrow : Field → Bool}
  {bytes bytes' : Bytes} {offset : Nat}

/-! ### Slots -/

/-- Whether values of this kind are read as a number. -/
def isScalarKind : CType.Kind → Bool
  | .primitive | .enumeration | .objectPointer => true
  | _ => false

theorem not_isScalarKind_of_isRecord (h : r.IsRecord t) : ¬isScalarKind (r.kindOf t) = true := by
  rcases h with h | h <;> rw [h] <;> decide

/-- **Slots.** The runs of bytes of a value in which something is stored, each by the byte at which
it starts and its length. A scalar takes all of its bytes, but of a member that counts as `narrow`
only those that its declared bits touch. Bytes that are in no slot are padding. -/
inductive Slot (r : Registry) (narrow : Field → Bool) : CType → Nat → Nat → Prop
  | scalar {t : CType} {length : Nat} (kind : isScalarKind (r.kindOf t) = true)
      (sizeOf : r.sizeOf t = .ok length) : Slot r narrow t 0 length
  /-- A slot of an element of an array. -/
  | element {t : CType} {total size i start length : Nat} (kind : r.kindOf t = .array)
      (byValue : Decoder.allArrays t = true) (sizeOf : r.sizeOf t = .ok total)
      (elementSize : r.sizeOf t.baseType = .ok size) (lt : i < total / size)
      (inner : Slot r narrow t.baseType start length) : Slot r narrow t (i * size + start) length
  /-- The bits of a narrow member. -/
  | bits {t : CType} {record : Record} {f : Field} {width : Nat} (isRecord : r.IsRecord t)
      (recordOf : r.recordOf t = .ok record) (mem : f ∈ record.fields) (isNarrow : narrow f = true)
      (bitSize : f.bitSize = some width) :
      Slot r narrow t f.offset ((f.bitOffset + width + 7) / 8)
  /-- A slot of another member. -/
  | member {t : CType} {record : Record} {f : Field} {start length : Nat}
      (isRecord : r.IsRecord t) (recordOf : r.recordOf t = .ok record) (mem : f ∈ record.fields)
      (notNarrow : narrow f = false) (inner : Slot r narrow f.type start length) :
      Slot r narrow t (f.offset + start) length

/-- Whether a member is a primitive value that is declared with a width. -/
def narrowPrimitive (r : Registry) (f : Field) : Bool :=
  r.kindOf f.type = .primitive && f.bitSize.isSome

/-- A member that is read as a bit field is declared as one. -/
theorem readsBits_eq_false (h : r.narrowPrimitive f = false) : r.readsBits f = false := by
  rw [narrowPrimitive] at h
  rw [readsBits]
  cases hkind : decide (r.kindOf f.type = .primitive) with
  | false => rfl
  | true =>
    rw [hkind, Bool.true_and, Option.isSome_eq_false_iff, Option.isNone_iff_eq_none] at h
    simp [Field.isBitField, h]

/-- **Two buffers that agree on the slots** of a value at `offset`, which lies within both. -/
structure SameSlots (r : Registry) (narrow : Field → Bool) (bytes bytes' : Bytes) (t : CType)
    (offset : Nat) : Prop where
  within : ∀ {size}, r.sizeOf t = .ok size → offset + size ≤ min bytes.length bytes'.length
  same : ∀ {start length}, r.Slot narrow t start length →
    bytes.window (offset + start) length = bytes'.window (offset + start) length

/-- The bytes of a scalar are read alike. -/
theorem SameSlots.readBytes_scalar (h : r.SameSlots narrow bytes bytes' t offset)
    (kind : isScalarKind (r.kindOf t) = true) {size : Nat} (hsize : r.sizeOf t = .ok size) :
    readBytes bytes offset size = readBytes bytes' offset size := by
  have hwithin := h.within hsize
  have hsame := h.same (.scalar kind hsize)
  rw [Nat.add_zero] at hsame
  rw [readBytes_of_within (by omega), readBytes_of_within (by omega), hsame]

/-- The slots of an element are slots of the array. -/
theorem SameSlots.element (h : r.SameSlots narrow bytes bytes' t offset)
    (kind : r.kindOf t = .array) (byValue : Decoder.allArrays t = true) {total size i : Nat}
    (htotal : r.sizeOf t = .ok total) (hsize : r.sizeOf t.baseType = .ok size)
    (hi : i < total / size) :
    r.SameSlots narrow bytes bytes' t.baseType (offset + i * size) where
  within hn := by
    obtain rfl := Except.ok.inj (hsize.symm.trans hn)
    have hwithin := h.within htotal
    have hfit : i * size + size ≤ total := Decoder.element_within hi
    omega
  same hslot := by
    rw [Nat.add_assoc]
    exact h.same (.element kind byValue htotal hsize hi hslot)

/-- Slots of a scalar: all of its bytes. -/
theorem sameSlots_scalar (kind : isScalarKind (r.kindOf t) = true) {size : Nat}
    (hsize : r.sizeOf t = .ok size) (hin : offset + size ≤ min bytes.length bytes'.length)
    (hsame : bytes.window offset size = bytes'.window offset size) :
    r.SameSlots narrow bytes bytes' t offset where
  within hn := by
    obtain rfl := Except.ok.inj (hsize.symm.trans hn)
    exact hin
  same hslot := by
    cases hslot with
    | scalar _ hn =>
      obtain rfl := Except.ok.inj (hsize.symm.trans hn)
      exact hsame
    -- a scalar has neither elements nor members
    | element harray => rw [harray] at kind; cases kind
    | bits isRecord => exact absurd kind (not_isScalarKind_of_isRecord isRecord)
    | member isRecord => exact absurd kind (not_isScalarKind_of_isRecord isRecord)

/-- Slots of an array: those of its elements. -/
theorem sameSlots_elements (kind : r.kindOf t = .array) {total size : Nat}
    (htotal : r.sizeOf t = .ok total) (hsize : r.sizeOf t.baseType = .ok size)
    (hin : offset + total ≤ min bytes.length bytes'.length)
    (helements : ∀ i < total / size,
      r.SameSlots narrow bytes bytes' t.baseType (offset + i * size)) :
    r.SameSlots narrow bytes bytes' t offset where
  within hn := by
    obtain rfl := Except.ok.inj (htotal.symm.trans hn)
    exact hin
  same hslot := by
    cases hslot with
    | scalar hscalar => rw [kind] at hscalar; cases hscalar
    | element _ _ htotal' hsize' hi hinner =>
      obtain rfl := Except.ok.inj (htotal.symm.trans htotal')
      obtain rfl := Except.ok.inj (hsize.symm.trans hsize')
      rw [← Nat.add_assoc]
      exact (helements _ hi).same hinner
    | bits isRecord => exact absurd kind isRecord.ne_array
    | member isRecord => exact absurd kind isRecord.ne_array

/-- Slots of a record: those of its members. -/
theorem sameSlots_members (isRecord : r.IsRecord t) (hof : r.recordOf t = .ok record)
    (hin : offset + record.size ≤ min bytes.length bytes'.length)
    (hnarrow : ∀ f ∈ record.fields, narrow f = true → ∀ width, f.bitSize = some width →
      bytes.window (offset + f.offset) ((f.bitOffset + width + 7) / 8) =
        bytes'.window (offset + f.offset) ((f.bitOffset + width + 7) / 8))
    (hwide : ∀ f ∈ record.fields, narrow f = false →
      r.SameSlots narrow bytes bytes' f.type (offset + f.offset)) :
    r.SameSlots narrow bytes bytes' t offset where
  within hn := by
    obtain rfl := Except.ok.inj ((isRecord.sizeOf_eq hof).symm.trans hn)
    exact hin
  same hslot := by
    cases hslot with
    | scalar hscalar => exact absurd hscalar (not_isScalarKind_of_isRecord isRecord)
    | element harray => exact absurd harray isRecord.ne_array
    | bits _ hof' hf hisNarrow hwidth =>
      obtain rfl := Except.ok.inj (hof.symm.trans hof')
      exact hnarrow _ hf hisNarrow _ hwidth
    | member _ hof' hf hnotNarrow hinner =>
      obtain rfl := Except.ok.inj (hof.symm.trans hof')
      rw [← Nat.add_assoc]
      exact (hwide _ hf hnotNarrow).same hinner

/-! ### Layouts -/

/-- **Structures that consist of their members.** Well-formed layouts in which every record is a
structure without anonymous members, and in which members start within their record. -/
structure Memberwise (r : Registry) (t : CType) : Prop extends r.WellFormed t where
  isStruct : ∀ {depth u record}, r.Part t depth u → r.IsRecord u → r.recordOf u = .ok record →
    record.kind = .struct
  noAnonymous : ∀ {depth u record}, r.Part t depth u → r.IsRecord u →
    r.recordOf u = .ok record → record.hasAnonymousMember = false
  /-- Members of an unknown size, too, start within their record. -/
  member_starts : ∀ {depth u record f}, r.Part t depth u → r.IsRecord u →
    r.recordOf u = .ok record → f ∈ record.fields → f.offset ≤ record.size

/-- The levels over a type have no records of their own. -/
theorem Memberwise.congr {s : CType} (h : r.Memberwise t) (hbase : s.baseType = t.baseType) :
    r.Memberwise s where
  toWellFormed := h.toWellFormed.congr hbase
  isStruct hpart := h.isStruct (part_congr hbase hpart)
  noAnonymous hpart := h.noAnonymous (part_congr hbase hpart)
  member_starts hpart := h.member_starts (part_congr hbase hpart)

/-- What a member has by value, the record has one level deeper. -/
theorem Memberwise.member (h : r.Memberwise t) (isRecord : r.IsRecord t)
    (recordOf : r.recordOf t = .ok record) (mem : f ∈ record.fields)
    (byValue : Decoder.allArrays f.type = true) : r.Memberwise f.type where
  toWellFormed := h.toWellFormed.member isRecord recordOf mem byValue
  isStruct hpart := h.isStruct (hpart.of_member isRecord recordOf mem byValue)
  noAnonymous hpart := h.noAnonymous (hpart.of_member isRecord recordOf mem byValue)
  member_starts hpart := h.member_starts (hpart.of_member isRecord recordOf mem byValue)

/-- Whether one of the listed types is a structure that consists of its members, or no record. -/
def plain (r : Registry) (p : CType × Nat) : Bool :=
  match r.recordOf p.1 with
  | .error _ => true
  | .ok record =>
    record.kind = .struct && !record.hasAnonymousMember &&
      record.fields.all (·.offset ≤ record.size)

/-- **Check.** A list of ranked types that fit and are plain shows that structures consist of their
members. -/
theorem memberwise_of_fits (ranked : List (CType × Nat)) (top : Nat)
    (base : (t.baseType, top) ∈ ranked) (hfits : ranked.all (r.fits ranked) = true)
    (hplain : ranked.all r.plain = true) : r.Memberwise t := by
  have hpart {depth : Nat} {u : CType} {record : Record} (h : r.Part t depth u)
      (hof : r.recordOf u = .ok record) : (record.kind = .struct ∧
        record.hasAnonymousMember = false) ∧ ∀ f ∈ record.fields, f.offset ≤ record.size := by
    -- every part of the value is one of the listed types
    obtain ⟨n, -, hu⟩ := h.mem_of_fits base hfits
    have hchecked := List.all_eq_true.1 hplain _ hu
    rw [plain, hof] at hchecked
    simpa using hchecked
  exact
    { toWellFormed := wellFormed_of_fits ranked top base hfits
      isStruct := fun h _ hof => (hpart h hof).1.1
      noAnonymous := fun h _ hof => (hpart h hof).1.2
      member_starts := fun h _ hof => (hpart h hof).2 _ }

section Member

variable (hwell : r.WellFormed t) (isRecord : r.IsRecord t)
  (recordOf : r.recordOf t = .ok record) (mem : f ∈ record.fields)
  (h : r.SameSlots r.narrowPrimitive bytes bytes' t offset)

include hwell isRecord recordOf mem h

/-- A member within the record is within both buffers. -/
theorem SameSlots.member_within {length : Nat} (hlength : r.memberLength f = .ok length) :
    offset + f.offset + length ≤ min bytes.length bytes'.length := by
  have hrecord := h.within (isRecord.sizeOf_eq recordOf)
  have hmember := hwell.member_within isRecord recordOf mem hlength
  omega

/-- The slots of a member that is not narrow are slots of the record. -/
theorem SameSlots.member (notNarrow : r.narrowPrimitive f = false) :
    r.SameSlots r.narrowPrimitive bytes bytes' f.type (offset + f.offset) where
  within hsize := by
    apply h.member_within hwell isRecord recordOf mem
    rw [memberLength, readsBits_eq_false notNarrow]
    exact hsize
  same hslot := by
    rw [Nat.add_assoc]
    exact h.same (.member isRecord recordOf mem notNarrow hslot)

omit hwell in
/-- The bytes of a narrow member, or some of the first of them, are read alike if they are within
the buffers. -/
theorem SameSlots.readBytes_bits (isNarrow : r.narrowPrimitive f = true) {width n : Nat}
    (hwidth : f.bitSize = some width) (hle : n ≤ (f.bitOffset + width + 7) / 8)
    (hin : offset + f.offset + n ≤ min bytes.length bytes'.length) :
    readBytes bytes (offset + f.offset) n = readBytes bytes' (offset + f.offset) n := by
  have hsame := h.same (.bits isRecord recordOf mem isNarrow hwidth)
  rw [readBytes_of_within (by omega), readBytes_of_within (by omega),
    Bytes.window_eq_of_le hsame hle]

end Member

end Registry

namespace Decoder

open Traced Registry

variable {d : Decoder} {bytes bytes' : Bytes} {t : CType} {offset : Nat}

/-- Two decoders of nested records that decode the same wherever their buffers agree on the
slots. -/
def NestedSame (d : Decoder) (bytes bytes' : Bytes) (nested nested' : Nested) : Prop :=
  ∀ (t : CType) (offset : Nat) (access : String), d.registry.IsRecord t →
    d.registry.Memberwise t →
      d.registry.SameSlots d.registry.narrowPrimitive bytes bytes' t offset →
        nested t offset access = nested' t offset access

/-! ### Scalars -/

section Scalars

variable {narrow : Field → Bool} (h : d.registry.SameSlots narrow bytes bytes' t offset)

include h

/-- A primitive value reads the bytes of its slot, -/
theorem primitiveView_sameSlots (hkind : d.registry.kindOf t = .primitive) :
    primitiveView bytes t offset = primitiveView bytes' t offset := by
  obtain ⟨p, hp, hsize⟩ := primitive_of_kindOf hkind
  have hread := h.readBytes_scalar (by rw [hkind]; rfl) hsize
  unfold primitiveView
  rw [hp]
  dsimp only
  rw [hread]

/-- an enumeration reads those of its own, -/
theorem enumerationView_sameSlots (hkind : d.registry.kindOf t = .enumeration) :
    d.enumerationView bytes t offset = d.enumerationView bytes' t offset := by
  obtain ⟨e, he, hsize⟩ := enumeration_of_kindOf hkind
  have hread := h.readBytes_scalar (by rw [hkind]; rfl) hsize
  unfold enumerationView
  rw [ofLayout_bind_of_ok he, ofLayout_bind_of_ok he, hread]

/-- and so does a stored pointer. -/
theorem pointerView_sameSlots (hkind : d.registry.kindOf t = .objectPointer) (access : String) :
    d.pointerView bytes t offset access = d.pointerView bytes' t offset access := by
  have hread := h.readBytes_scalar (by rw [hkind]; rfl) (sizeOf_of_objectPointer hkind)
  unfold pointerView
  rw [hread]

end Scalars

section Nested

variable {nested nested' : Nested} (hword : bytes.length < Word.limit)
  (hnested : d.NestedSame bytes bytes' nested nested')

include hnested

/-! ### Arrays -/

/-- Elements, by their kind. -/
theorem elementView_sameSlots (hlayout : d.registry.Memberwise t)
    (h : d.registry.SameSlots d.registry.narrowPrimitive bytes bytes' t offset) (access : String) :
    d.elementView bytes nested (d.registry.kindOf t) t offset access =
      d.elementView bytes' nested' (d.registry.kindOf t) t offset access := by
  unfold elementView
  cases hkind : d.registry.kindOf t with
  | primitive => exact primitiveView_sameSlots h hkind
  | enumeration => exact enumerationView_sameSlots h hkind
  | struct => exact hnested t offset access (.inl hkind) hlayout h
  | union => exact hnested t offset access (.inr hkind) hlayout h
  | _ => rfl

include hword

/-- The elements of an array that is stored by value. -/
theorem arrayElements_sameSlots (hlayout : d.registry.Memberwise t)
    (h : d.registry.SameSlots d.registry.narrowPrimitive bytes bytes' t offset)
    (hkind : d.registry.kindOf t = .array) (byValue : allArrays t = true) {total : Nat}
    (htotal : d.registry.sizeOf t = .ok total) (access : String) :
    d.arrayElements bytes nested t.baseType offset total access =
      d.arrayElements bytes' nested' t.baseType offset total access := by
  have hbase : d.registry.Memberwise t.baseType := hlayout.congr (CType.baseType_baseType t)
  have hwithin := h.within htotal
  unfold arrayElements
  dsimp only
  split
  · rfl
  cases hsize : d.elementSize t.baseType with
  | error e => rfl
  | ok size =>
    -- the same number of steps is taken in both buffers
    have hsized : d.registry.sizeOf t.baseType = .ok size :=
      (elementSize_eq_sizeOf d t.baseType).symm.trans hsize
    rw [ofLayout_bind_of_ok rfl, ofLayout_bind_of_ok rfl]
    split
    · rfl
    rw [eachFrom_eq_mapM, eachFrom_eq_mapM]
    apply mapM_congr
    intro i hi
    have hcount : i < total / size := by simpa using hi
    have hfit : i * size + size ≤ total := element_within hcount
    -- the place of an element in the buffer is a machine word
    have hplace : (Word.mul? i size).bind (Word.add? offset) = some (offset + i * size) :=
      elementPlace_eq_some_iff.2 ⟨by omega, rfl⟩
    rw [hplace]
    exact elementView_sameSlots hnested hbase (h.element hkind byValue htotal hsized hcount) _

/-! ### Members -/

/-- A member that is an array, if it has a size. Arrays over pointers are not read at all. -/
theorem arrayFieldView_sameSlots (hlayout : allArrays t = true → d.registry.Memberwise t)
    (h : d.registry.SameSlots d.registry.narrowPrimitive bytes bytes' t offset)
    (hkind : d.registry.kindOf t = .array) (usage : Usage) (access : String) :
    d.arrayFieldView bytes usage nested t offset access =
      d.arrayFieldView bytes' usage nested' t offset access := by
  unfold arrayFieldView
  cases htotal : d.registry.sizeOf t with
  | error e => rfl
  | ok total =>
    have helements (byValue : allArrays t = true) :=
      arrayElements_sameSlots hword hnested (hlayout byValue) h hkind byValue htotal access
    rw [ofLayout_bind_of_ok rfl, ofLayout_bind_of_ok rfl]
    split
    · next hone =>
      have hread := helements (allArrays_of_dimension_one hkind hone)
      rw [arrayView, arrayView, CType.pointee_of_dimension_one hone, hread]
    · split
      · next byValue => rw [nestedArrayView, nestedArrayView, helements byValue]
      · rfl

section Record

variable {record : Record} (hrecord : d.registry.IsRecord t)
  (hof : d.registry.recordOf t = .ok record) (hlayout : d.registry.Memberwise t)
  (h : d.registry.SameSlots d.registry.narrowPrimitive bytes bytes' t offset)

include hrecord hof hlayout h

omit hword hnested in
/-- A member that is a primitive value, whether or not it is a bit field. -/
theorem primitiveMember_sameSlots {f : Field} (hf : f ∈ record.fields) {p : Primitive}
    (hkind : d.registry.kindOf f.type = .primitive) (hp : f.type.primitive? = some p) :
    (if f.isBitField p.size then bitFieldView bytes f p (offset + f.offset)
      else primitiveView bytes f.type (offset + f.offset)) =
    (if f.isBitField p.size then bitFieldView bytes' f p (offset + f.offset)
      else primitiveView bytes' f.type (offset + f.offset)) := by
  have hbits := readsBits_of_primitive hkind hp
  have hwithin {length : Nat} (hlength : d.registry.memberLength f = .ok length) :=
    h.member_within hlayout.toWellFormed hrecord hof hf hlength
  cases hnarrow : d.registry.narrowPrimitive f with
  | false =>
    -- without a width it is a value like any other
    rw [← hbits, readsBits_eq_false hnarrow]
    exact primitiveView_sameSlots (h.member hlayout.toWellFormed hrecord hof hf hnarrow) hkind
  | true =>
    obtain ⟨width, hwidth⟩ : ∃ width, f.bitSize = some width := by
      rw [narrowPrimitive, Bool.and_eq_true] at hnarrow
      exact Option.isSome_iff_exists.1 hnarrow.2
    split
    · next hbit =>
      -- no more bytes are read than the declared bits touch
      have htouched := Word.addSaturating_le f.bitOffset width
      have hin := hwithin (by rw [memberLength, hbits, hbit, if_pos rfl, hwidth])
      rw [Option.getD_some] at hin
      unfold bitFieldView
      rw [hwidth]
      dsimp only [Option.getD_some]
      rw [h.readBytes_bits hrecord hof hf hnarrow hwidth (by omega) (by omega)]
    · next hwhole =>
      -- a width of all bits or more: the value is read whole, and is no longer than its bits
      obtain ⟨p', hp', hsize⟩ := primitive_of_kindOf hkind
      obtain rfl : p = p' := Option.some.inj (hp.symm.trans hp')
      have hle := f.size_le_of_not_isBitField (CType.find?_of_primitive? hp) hwidth hwhole
      have hin := hwithin (by rw [memberLength, hbits, if_neg hwhole, hsize])
      unfold primitiveView
      rw [hp]
      dsimp only
      rw [h.readBytes_bits hrecord hof hf hnarrow hwidth hle hin]

/-- **Members**, by their kind. Only a primitive value can be read in part. -/
theorem fieldView_sameSlots {f : Field} (hf : f ∈ record.fields) (usage : Usage)
    (access : String) :
    d.fieldView bytes usage nested record f offset access =
      d.fieldView bytes' usage nested' record f offset access := by
  have hwell := hlayout.toWellFormed
  -- the place of a member within the record is a machine word
  have hplace : Word.add? offset f.offset = some (offset + f.offset) := by
    have hwithin := h.within (hrecord.sizeOf_eq hof)
    have hstarts := hlayout.member_starts (Part.self_of_isRecord hrecord) hrecord hof hf
    exact Word.add?_eq_some_iff.2 ⟨by omega, rfl⟩
  have hbase (hlevels : f.type.levels = []) : d.registry.Memberwise f.type := by
    apply hlayout.member hrecord hof hf
    rw [allArrays, hlevels]
    rfl
  -- all other members take the slots of their types
  have hslots (hkind : d.registry.kindOf f.type ≠ .primitive) :
      d.registry.SameSlots d.registry.narrowPrimitive bytes bytes' f.type (offset + f.offset) := by
    apply h.member hwell hrecord hof hf
    simp [narrowPrimitive, hkind]
  unfold fieldView
  rw [hplace]
  dsimp only
  cases hkind : d.registry.kindOf f.type <;> dsimp only
  case primitive =>
    obtain ⟨p, hp, -⟩ := primitive_of_kindOf hkind
    rw [hp]
    exact primitiveMember_sameSlots hrecord hof hlayout h hf hkind hp
  case struct =>
    exact hnested _ _ _ (.inl hkind) (hbase (IsRecord.levels (.inl hkind)))
      (hslots (by simp [hkind]))
  case union =>
    exact hnested _ _ _ (.inr hkind) (hbase (IsRecord.levels (.inr hkind)))
      (hslots (by simp [hkind]))
  case enumeration => exact enumerationView_sameSlots (hslots (by simp [hkind])) hkind
  case array =>
    exact arrayFieldView_sameSlots hword hnested (hlayout.member hrecord hof hf)
      (hslots (by simp [hkind])) hkind usage _
  case objectPointer => exact pointerView_sameSlots (hslots (by simp [hkind])) hkind _

/-! ### Structures -/

/-- A structure without anonymous members is what its members are. -/
theorem structView_sameSlots (usage : Usage) (access : String) :
    d.structView bytes usage nested record offset access =
      d.structView bytes' usage nested' record offset access := by
  have hmembers : membersView (fun f => d.fieldView bytes usage nested record f offset access)
        record.fields =
      membersView (fun f => d.fieldView bytes' usage nested' record f offset access)
        record.fields := by
    apply mapM_congr
    intro f hf
    dsimp only
    rw [fieldView_sameSlots hword hnested hrecord hof hlayout h hf]
  have hplain : record.hasAnonymousMember = false :=
    hlayout.noAnonymous (Part.self_of_isRecord hrecord) hrecord hof
  -- without anonymous members no raw bytes are read, which would show the padding
  unfold structView
  rw [hmembers, hplain]
  rfl

end Record

end Nested

/-- **Structures** in buffers that agree on their slots, however deep they are nested. -/
theorem recordView_sameSlots (hword : bytes.length < Word.limit) (usage : Usage) (levels : Nat) :
    d.NestedSame bytes bytes' (d.recordView bytes usage levels)
      (d.recordView bytes' usage levels) := by
  induction levels with
  | zero =>
    -- a record that is nested too deep is refused before its bytes are read
    exact fun _ _ _ _ _ _ => rfl
  | succ levels ih =>
    intro t offset access hrecord hlayout h
    obtain ⟨record, hof, -⟩ := hrecord.exists_record
    have hstruct : record.kind = .struct :=
      hlayout.isStruct (Part.self_of_isRecord hrecord) hrecord hof
    unfold recordView
    rw [ofLayout_bind_of_ok hof, ofLayout_bind_of_ok hof, hstruct]
    exact structView_sameSlots hword ih hrecord hof hlayout h usage access

/-- **Padding is ignored.** From two buffers that agree on the slots of a structure it is decoded to
the same value or the same error, with the same references and warnings, whatever else the buffers
hold and however long they are. Only primitive values have the slots of their declared bits here. An
enumeration takes all of its bytes, also where it is declared with a width. -/
theorem padding_ignored (hkind : d.registry.kindOf t = .struct)
    (hlayout : d.registry.Memberwise t) (hword : bytes.length < Word.limit)
    (h : d.registry.SameSlots d.registry.narrowPrimitive bytes bytes' t 0) (usage : Usage)
    (name : String) : d.decode bytes t usage name = d.decode bytes' t usage name := by
  rw [decode, decode, hkind]
  exact recordView_sameSlots hword usage _ t 0 name (.inl hkind) hlayout h

/-- A shape and its corners consist of their members. -/
theorem memberwise_shape : shapeDecoder.registry.Memberwise (.simple "shape") :=
  memberwise_of_fits
    [(.simple "shape", 2), (.simple "corner", 1), (.simple "color", 0), (.simple "uint32_t", 0),
      (.simple "int16_t", 0)]
    2 (by decide) (by decide) (by decide)

/-- Corners agree if their coordinates do. -/
theorem sameSlots_corner {place : Nat} (hin : place + 4 ≤ min bytes.length bytes'.length)
    (hx : bytes.window place 2 = bytes'.window place 2)
    (hy : bytes.window (place + 2) 2 = bytes'.window (place + 2) 2) :
    shapeDecoder.registry.SameSlots shapeDecoder.registry.narrowPrimitive bytes bytes'
      (.simple "corner") place := by
  have hsize : shapeDecoder.registry.sizeOf (.simple "int16_t") = .ok 2 := rfl
  refine sameSlots_members (.inl rfl) rfl hin ?_ ?_
  · -- neither coordinate is declared with a width
    exact List.forall_mem_cons.2 ⟨nofun, List.forall_mem_cons.2 ⟨nofun, nofun⟩⟩
  · refine List.forall_mem_cons.2 ⟨fun _ => ?_, List.forall_mem_cons.2 ⟨fun _ => ?_, nofun⟩⟩
    · exact sameSlots_scalar rfl hsize (by dsimp only; omega) hx
    · exact sameSlots_scalar rfl hsize (by dsimp only; omega) hy

/-- The bytes of a shape, with the padding after its first byte and what follows the shape. -/
def shapeBytes (padding rest : Bytes) : Bytes :=
  [20] ++ padding ++ [1, 0, 2, 0, 3, 0, 4, 0, 1, 0, 0, 0, 48, 0, 0, 0, 0, 0, 0, 0] ++ rest

/-- A shape with other padding, and with other bytes behind it, is the same shape. -/
theorem shape_padding_ignored :
    shapeDecoder.decode (shapeBytes [0, 0, 0] []) (.simple "shape") .lazy "s" =
      shapeDecoder.decode (shapeBytes [7, 8, 9] [255]) (.simple "shape") .lazy "s" := by
  apply padding_ignored rfl memberwise_shape (by decide)
  have hcorners : shapeDecoder.registry.SameSlots shapeDecoder.registry.narrowPrimitive
      (shapeBytes [0, 0, 0] []) (shapeBytes [7, 8, 9] [255]) ((CType.simple "corner").array 2)
      4 := by
    have htotal : shapeDecoder.registry.sizeOf ((CType.simple "corner").array 2) = .ok 8 := rfl
    have hsize : shapeDecoder.registry.sizeOf (.simple "corner") = .ok 4 := rfl
    apply sameSlots_elements rfl htotal hsize (by decide)
    -- two corners of four bytes each
    intro i hi
    obtain rfl | rfl : i = 0 ∨ i = 1 := by omega
    · exact sameSlots_corner (by decide) rfl rfl
    · exact sameSlots_corner (by decide) rfl rfl
  refine sameSlots_members (.inl rfl) rfl (by decide) ?_ ?_
  · -- the bits are in the first byte
    refine List.forall_mem_cons.2 ⟨fun _ width hwidth => ?_, List.forall_mem_cons.2 ⟨nofun,
      List.forall_mem_cons.2 ⟨nofun, List.forall_mem_cons.2 ⟨nofun, nofun⟩⟩⟩⟩
    obtain rfl := Option.some.inj hwidth
    rfl
  · refine List.forall_mem_cons.2 ⟨nofun, List.forall_mem_cons.2 ⟨fun _ => hcorners,
      List.forall_mem_cons.2 ⟨fun _ => ?_, List.forall_mem_cons.2 ⟨fun _ => ?_, nofun⟩⟩⟩⟩
    · exact sameSlots_scalar rfl rfl (by decide) rfl
    · exact sameSlots_scalar rfl rfl (by decide) rfl

/-- A paint: three bits of a color, and padding. -/
def paintRecord : Record where
  name := "paint"
  kind := .struct
  size := 4
  fields := [⟨"color", .simple "color", 0, some 3, 0⟩]

/-- A decoder that knows paints. -/
def paintDecoder : Decoder where
  registry := .ofLists [paintRecord] [colorEnumeration] 8
  method := "draw"

/-- **A leaking enumeration.** Two paints agree on the byte that their declared bits touch, but they
are decoded to different values, since the enumeration is read whole. -/
theorem exists_leaking_enumeration :
    paintDecoder.registry.Memberwise (.simple "paint") ∧
      paintDecoder.registry.SameSlots (fun f => f.bitSize.isSome) [1, 0, 0, 0] [1, 1, 0, 0]
        (.simple "paint") 0 ∧
      (paintDecoder.decode [1, 0, 0, 0] (.simple "paint") .parameter "p").outcome =
        .ok (.struct "paint" [("color", .enumerator "BLUE")] true none) ∧
      (paintDecoder.decode [1, 1, 0, 0] (.simple "paint") .parameter "p").outcome =
        .ok (.struct "paint" [("color", .enumerator "(enum color)(257)")] true none) := by
  refine ⟨memberwise_of_fits [(.simple "paint", 1), (.simple "color", 0)] 1 (by decide)
    (by decide) (by decide), ?_, rfl, rfl⟩
  refine sameSlots_members (.inl rfl) rfl (by decide) ?_ ?_
  · refine List.forall_mem_cons.2 ⟨fun _ width hwidth => ?_, nofun⟩
    -- three bits are in the first byte, which is the same
    obtain rfl := Option.some.inj hwidth
    rfl
  · -- no member is left that is not narrow
    exact List.forall_mem_cons.2 ⟨nofun, nofun⟩

end Decoder

end SymVec

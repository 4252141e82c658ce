import SymVec.Proofs.Tracing
import SymVec.Proofs.ValueLayouts
import SymVec.Decoder.Value

/-!
# Progress of decoding

Decoding does not fail on a type whose layouts are *readable*, from a buffer that is long enough.
Readable layouts are well-formed, all parts of a value are known and have a size, and records are
not nested in each other beyond the limit. An enumeration is always read whole: one that is declared
as a bit field and lies at the end of a record is not readable there.

* `Decoder.succeeds_recordView` — records, by induction on how deep they may be nested;
* `Decoder.decode_progress` — buffers of any type;
* `Decoder.exists_narrow_enumeration` — an enumeration in a bit field at the end of a record.
-/

namespace SymVec

namespace Registry

variable {r : Registry} {t u : CType} {record : Record} {f : Field} {limit : Nat}

/-- **Readable layouts.** Well-formed layouts, in which all parts are known and have a size, and in
which records are nested in less than `limit` others. -/
structure Readable (r : Registry) (t : CType) (limit : Nat) : Prop extends r.WellFormed t where
  sized : ∀ {depth u}, r.Part t depth u → ∃ size, r.sizeOf u = .ok size ∧ 0 < size
  /-- A member that is an array has a size, too, which is a machine word. -/
  member_sized : ∀ {depth u record f}, r.Part t depth u → r.IsRecord u →
    r.recordOf u = .ok record → f ∈ record.fields → ∃ length, r.memberLength f = .ok length
  nested_lt : ∀ {depth u}, r.Part t depth u → r.IsRecord u → depth < limit

/-- The levels over a type have no records of their own. -/
theorem Readable.congr {s : CType} (h : r.Readable t limit) (hbase : s.baseType = t.baseType) :
    r.Readable s limit where
  toWellFormed := h.toWellFormed.congr hbase
  sized hpart := h.sized (part_congr hbase hpart)
  member_sized hpart := h.member_sized (part_congr hbase hpart)
  nested_lt hpart := h.nested_lt (part_congr hbase hpart)

/-- Members by value of a readable record are readable, with one record less around them. -/
theorem Readable.member (h : r.Readable t (limit + 1)) (isRecord : r.IsRecord t)
    (recordOf : r.recordOf t = .ok record) (mem : f ∈ record.fields)
    (byValue : Decoder.allArrays f.type = true) : r.Readable f.type limit where
  toWellFormed := h.toWellFormed.member isRecord recordOf mem byValue
  sized hpart := h.sized (hpart.of_member isRecord recordOf mem byValue)
  member_sized hpart := h.member_sized (hpart.of_member isRecord recordOf mem byValue)
  nested_lt hpart hu := Nat.lt_of_succ_lt_succ
    (h.nested_lt (hpart.of_member isRecord recordOf mem byValue) hu)

/-- The base type of a readable type is known, and has a size. -/
theorem Readable.base_sized (h : r.Readable t limit) :
    ∃ size, r.sizeOf t.baseType = .ok size ∧ 0 < size := h.sized Part.whole

/-! ### Checking layouts -/

/-- Whether one of the listed types has a size, and all of its members have, if it is a record. -/
def measured (r : Registry) (p : CType × Nat) : Bool :=
  (r.sizeOf p.1).toOption.any (0 < ·) &&
    match r.recordOf p.1 with
    | .error _ => true
    | .ok record => record.fields.all fun f => (r.memberLength f).toOption.isSome

/-- **Check.** A list of ranked types that fit and are measured shows that layouts are readable, if
the ranks stay below the limit. -/
theorem readable_of_fits (ranked : List (CType × Nat)) (top : Nat)
    (base : (t.baseType, top) ∈ ranked) (hfits : ranked.all (r.fits ranked) = true)
    (hmeasured : ranked.all r.measured = true) (htop : top < limit) : r.Readable t limit where
  toWellFormed := wellFormed_of_fits ranked top base hfits
  sized := by
    intro depth u hpart
    obtain ⟨n, -, hu⟩ := hpart.mem_of_fits base hfits
    -- a listed type has a size, which is not zero
    have hpos := (Bool.and_eq_true_iff.1 (List.all_eq_true.1 hmeasured _ hu)).1
    cases hsize : r.sizeOf u with
    | error e =>
      rw [hsize] at hpos
      cases hpos
    | ok size =>
      rw [hsize] at hpos
      exact ⟨size, rfl, of_decide_eq_true hpos⟩
  member_sized := by
    intro depth u record f hpart _ hrecord hf
    obtain ⟨n, -, hu⟩ := hpart.mem_of_fits base hfits
    have hmembers := (Bool.and_eq_true_iff.1 (List.all_eq_true.1 hmeasured _ hu)).2
    rw [hrecord] at hmembers
    have hmember := List.all_eq_true.1 hmembers f hf
    cases hlength : r.memberLength f with
    | error e =>
      rw [hlength] at hmember
      cases hmember
    | ok length => exact ⟨length, rfl⟩
  nested_lt := by
    intro depth u hpart _
    -- each record inward lowers the rank, which starts below the limit
    obtain ⟨n, hdepth, -⟩ := hpart.mem_of_fits base hfits
    omega

/-- A raw byte is readable. -/
theorem readable_rawByte (r : Registry) (limit : Nat) : r.Readable .rawByte limit where
  toWellFormed := wellFormed_of_not_isRecord (not_isRecord_rawByte r)
  sized hpart := by
    rw [(hpart.eq_of_not_isRecord (not_isRecord_rawByte r)).2]
    exact ⟨1, rfl, Nat.one_pos⟩
  member_sized hpart hrecord :=
    absurd ((hpart.eq_of_not_isRecord (not_isRecord_rawByte r)).2 ▸ hrecord)
      (not_isRecord_rawByte r)
  nested_lt hpart hrecord :=
    absurd ((hpart.eq_of_not_isRecord (not_isRecord_rawByte r)).2 ▸ hrecord)
      (not_isRecord_rawByte r)

end Registry

namespace Decoder

open Traced

variable {d : Decoder} {bytes : Bytes}

/-- A decoder of nested records succeeds on readable records that lie in the buffer. -/
def NestedSucceeds (d : Decoder) (bytes : Bytes) (limit : Nat) (nested : Nested) : Prop :=
  ∀ (t : CType) (offset : Nat) (access : String) (size : Nat), d.registry.IsRecord t →
    d.registry.Readable t limit → d.registry.sizeOf t = .ok size →
      offset + size ≤ bytes.length → (nested t offset access).Succeeds

/-! ### Scalars -/

/-- Bytes within the buffer are read. -/
theorem succeeds_readBytes {offset n : Nat} (h : offset + n ≤ bytes.length) :
    (readBytes bytes offset n).Succeeds := by
  refine ⟨(bytes.drop offset).take n, ?_⟩
  rw [outcome_readBytes, if_pos h]

theorem succeeds_primitiveView {t : CType} {p : Primitive} (hp : t.primitive? = some p)
    {offset : Nat} (hin : offset + p.size ≤ bytes.length) :
    (primitiveView bytes t offset).Succeeds := by
  unfold primitiveView
  rw [hp]
  exact (succeeds_readBytes hin).bind fun _ _ => succeeds_pure _

/-- A bit field reads no more bytes than its bits touch. -/
theorem succeeds_bitFieldView {f : Field} {p : Primitive} {offset : Nat}
    (hin : offset + (f.bitOffset + f.bitSize.getD (8 * p.size) + 7) / 8 ≤ bytes.length) :
    (bitFieldView bytes f p offset).Succeeds := by
  have htouched := Word.addSaturating_le f.bitOffset (f.bitSize.getD (8 * p.size))
  unfold bitFieldView
  exact (succeeds_readBytes (by omega)).bind fun _ _ => succeeds_pure _

/-- An enumeration is read whatever its number is. -/
theorem succeeds_enumerationView {t : CType} {e : Enumeration}
    (he : d.registry.enumerationOf t = .ok e) {offset : Nat}
    (hin : offset + e.size ≤ bytes.length) : (d.enumerationView bytes t offset).Succeeds := by
  unfold enumerationView
  rw [ofLayout_bind_of_ok he]
  refine (succeeds_readBytes hin).bind fun run _ => ?_
  -- a value without a name is cast, with a warning
  dsimp only
  split
  · exact succeeds_pure _
  · exact ⟨_, rfl⟩

/-- A stored pointer is read whatever its address is. -/
theorem succeeds_pointerView {t : CType} {offset : Nat} {access : String}
    (hin : offset + d.registry.pointerSize ≤ bytes.length) :
    (d.pointerView bytes t offset access).Succeeds := by
  unfold pointerView
  refine (succeeds_readBytes hin).bind fun run _ => ?_
  dsimp only
  split
  · exact ⟨_, rfl⟩
  · exact succeeds_pure _

/-- Values of a known type without levels can be elements. -/
theorem isElementKind_of_sized {t : CType} (hlevels : t.levels = []) {size : Nat}
    (hsize : d.registry.sizeOf t = .ok size) :
    isElementKind (d.registry.kindOf t) = true := by
  have hunknown : d.registry.kindOf t ≠ .unknown := Registry.kindOf_ne_unknown hsize
  -- the kind of a type without levels is that of its base
  have harray : d.registry.kindOf t ≠ .array := by
    rw [Registry.kindOf, hlevels]
    exact Registry.baseKind_ne_array _ _
  have hpointer : d.registry.kindOf t ≠ .objectPointer := by
    rw [Registry.kindOf, hlevels]
    exact Registry.baseKind_ne_objectPointer _ _
  revert hunknown harray hpointer
  cases d.registry.kindOf t <;> simp [isElementKind]

section Values

variable (hword : bytes.length < Word.limit) {limit : Nat} {nested : Nested}
  (hnested : d.NestedSucceeds bytes limit nested)

include hnested

/-! ### Arrays -/

/-- An element whose type has no levels. -/
theorem succeeds_elementView {t : CType} (hlevels : t.levels = [])
    (h : d.registry.Readable t limit) {size offset : Nat} (hsize : d.registry.sizeOf t = .ok size)
    (hin : offset + size ≤ bytes.length) (access : String) :
    (d.elementView bytes nested (d.registry.kindOf t) t offset access).Succeeds := by
  unfold elementView
  -- what a type without levels is tells how its values are read
  rcases d.registry.base_cases hlevels with ⟨-, hkind, -⟩ | ⟨p, hp, hkind, hn⟩ |
    ⟨record, -, hrecord, -⟩ | ⟨e, he, hkind, hn⟩ | ⟨-, error, hn⟩
  · rw [hkind]
    exact succeeds_pure _
  · obtain rfl : p.size = size := Except.ok.inj (hn.symm.trans hsize)
    rw [hkind]
    exact succeeds_primitiveView hp hin
  · have hread := hnested t offset access size hrecord h hsize hin
    rcases hrecord with hkind | hkind <;> rw [hkind] <;> exact hread
  · obtain rfl : e.size = size := Except.ok.inj (hn.symm.trans hsize)
    rw [hkind]
    exact succeeds_enumerationView he hin
  · -- an unknown type has no size
    rw [hn] at hsize
    cases hsize

include hword

/-- Elements within the buffer. No place among them overflows. -/
theorem succeeds_arrayElements {t : CType} (hlevels : t.levels = [])
    (h : d.registry.Readable t limit) {offset length : Nat}
    (hin : offset + length ≤ bytes.length) (access : String) :
    (d.arrayElements bytes nested t offset length access).Succeeds := by
  obtain ⟨size, hsize, hpos⟩ : ∃ size, d.registry.sizeOf t = .ok size ∧ 0 < size := by
    have hbase := h.base_sized
    rwa [CType.baseType_of_levels_nil hlevels] at hbase
  have helement : d.elementSize t = .ok size := (elementSize_eq_sizeOf d t).trans hsize
  unfold arrayElements
  dsimp only
  rw [isElementKind_of_sized hlevels hsize, if_neg (by decide), ofLayout_bind_of_ok helement,
    if_neg (Nat.ne_of_gt hpos), eachFrom_eq_mapM]
  refine succeeds_mapM fun i hi => ?_
  have hfit : i * size + size ≤ length := element_within (by simpa using hi)
  -- the element ends within the buffer, which is no longer than a machine word counts
  have hplace : (Word.mul? i size).bind (Word.add? offset) = some (offset + i * size) :=
    elementPlace_eq_some_iff.2 ⟨by omega, rfl⟩
  rw [hplace]
  exact succeeds_elementView hnested hlevels h hsize (by omega) _

theorem succeeds_arrayView {t : CType} (hlevels : t.levels = []) (h : d.registry.Readable t limit)
    {offset length : Nat} (hin : offset + length ≤ bytes.length) (access : String) :
    (d.arrayView bytes nested t offset length access).Succeeds :=
  (succeeds_arrayElements hword hnested hlevels h hin access).bind fun _ _ => succeeds_pure _

theorem succeeds_nestedArrayView {t : CType} (h : d.registry.Readable t limit) (usage : Usage)
    {offset length : Nat} (hin : offset + length ≤ bytes.length) (access : String) :
    (d.nestedArrayView bytes nested usage t offset length access).Succeeds := by
  have hbase : d.registry.Readable t.baseType limit := h.congr (CType.baseType_baseType t)
  exact (succeeds_arrayElements hword hnested (CType.levels_baseType t) hbase hin access).bind
    fun _ _ => succeeds_pure _

/-! ### Members -/

/-- An array, readable if its elements are stored in it. -/
theorem succeeds_arrayFieldView {t : CType} (h : allArrays t = true → d.registry.Readable t limit)
    (harray : d.registry.kindOf t = .array) (usage : Usage) {size offset : Nat}
    (hsize : d.registry.sizeOf t = .ok size) (hin : offset + size ≤ bytes.length)
    (access : String) : (d.arrayFieldView bytes usage nested t offset access).Succeeds := by
  unfold arrayFieldView
  rw [ofLayout_bind_of_ok hsize]
  split
  · next hone =>
    -- the element of a single level is the base type
    have hpointee : t.pointee = t.baseType := CType.pointee_of_dimension_one hone
    have hread : d.registry.Readable t.pointee limit := by
      rw [hpointee]
      exact (h (allArrays_of_dimension_one harray hone)).congr (CType.baseType_baseType t)
    refine succeeds_arrayView hword hnested ?_ hread hin access
    rw [hpointee]
    exact CType.levels_baseType t
  · split
    · next harrays => exact succeeds_nestedArrayView hword hnested (h harrays) usage hin access
    · exact succeeds_pure _

/-- A member of a record that lies within the buffer. -/
theorem succeeds_fieldView {record : Record} {f : Field} {offset length : Nat}
    (h : allArrays f.type = true → d.registry.Readable f.type limit)
    (hlength : d.registry.memberLength f = .ok length)
    (hin : offset + f.offset + length ≤ bytes.length) (usage : Usage) (access : String) :
    (d.fieldView bytes usage nested record f offset access).Succeeds := by
  -- the place is within the buffer, and so a machine word
  have hplace : Word.add? offset f.offset = some (offset + f.offset) :=
    Word.add?_eq_some_iff.2 ⟨by omega, rfl⟩
  have hsized : d.registry.kindOf f.type ≠ .primitive → d.registry.sizeOf f.type = .ok length :=
    fun hkind => (Registry.memberLength_of_kindOf hkind).symm.trans hlength
  have hbase : f.type.levels = [] → d.registry.Readable f.type limit := by
    intro hlevels
    exact h (by rw [allArrays, hlevels]; rfl)
  unfold fieldView
  rw [hplace]
  dsimp only
  cases hkind : d.registry.kindOf f.type <;> dsimp only
  case primitive =>
    obtain ⟨p, hp, hsize⟩ := Registry.primitive_of_kindOf hkind
    have hbits := Registry.readsBits_of_primitive hkind hp
    rw [hp]
    rw [Registry.memberLength, hbits] at hlength
    dsimp only
    split
    · next hbit =>
      -- a bit field takes the bytes that its bits touch
      rw [if_pos hbit] at hlength
      obtain ⟨width, hwidth⟩ := f.exists_width_of_isBitField hbit
      obtain rfl := Except.ok.inj hlength
      refine succeeds_bitFieldView ?_
      rw [hwidth] at hin ⊢
      exact hin
    · next hwhole =>
      -- any other value takes the bytes of its type
      rw [if_neg hwhole, hsize] at hlength
      obtain rfl := Except.ok.inj hlength
      exact succeeds_primitiveView hp hin
  case struct =>
    have hrecord : d.registry.IsRecord f.type := Or.inl hkind
    exact hnested _ _ _ _ hrecord (hbase hrecord.levels) (hsized (by simp [hkind])) hin
  case union =>
    have hrecord : d.registry.IsRecord f.type := Or.inr hkind
    exact hnested _ _ _ _ hrecord (hbase hrecord.levels) (hsized (by simp [hkind])) hin
  case enumeration =>
    obtain ⟨e, he, hsize⟩ := Registry.enumeration_of_kindOf hkind
    obtain rfl : length = e.size := Except.ok.inj ((hsized (by simp [hkind])).symm.trans hsize)
    exact succeeds_enumerationView he hin
  case array =>
    exact succeeds_arrayFieldView hword hnested h hkind usage (hsized (by simp [hkind])) hin _
  case objectPointer =>
    have hsize : d.registry.sizeOf f.type = .ok d.registry.pointerSize :=
      Registry.sizeOf_of_objectPointer hkind
    obtain rfl : length = d.registry.pointerSize :=
      Except.ok.inj ((hsized (by simp [hkind])).symm.trans hsize)
    exact succeeds_pointerView hin
  -- a stub is made without reading
  case functionPointer => exact succeeds_pure _
  case unknown => exact absurd hkind (Registry.kindOf_ne_unknown (hsized (by simp [hkind])))

/-- A member of a union, of which a pointer is not read. -/
theorem succeeds_unionMemberView {record : Record} {f : Field} {offset length : Nat}
    (h : allArrays f.type = true → d.registry.Readable f.type limit)
    (hlength : d.registry.memberLength f = .ok length)
    (hin : offset + f.offset + length ≤ bytes.length) (usage : Usage) (access : String) :
    (d.unionMemberView bytes usage nested record f offset access).Succeeds := by
  unfold unionMemberView
  split
  · exact succeeds_pure _
  · exact succeeds_fieldView hword hnested h hlength hin usage access

omit hword hnested in
theorem succeeds_membersView {member : Field → Traced View} {fields : List Field}
    (h : ∀ f ∈ fields, (member f).Succeeds) : (membersView member fields).Succeeds :=
  succeeds_mapM fun f hf => (h f hf).bind fun _ _ => succeeds_pure _

/-! ### Records -/

/-- The raw bytes of a record within the buffer. -/
theorem succeeds_rawBytesView {offset size : Nat} (hin : offset + size ≤ bytes.length) :
    (d.rawBytesView bytes nested offset size).Succeeds := by
  have hraw : d.registry.Readable .rawByte limit := Registry.readable_rawByte _ _
  exact succeeds_arrayView hword hnested rfl hraw hin ""

section Record

variable {t : CType} {record : Record} {offset : Nat} (hrecord : d.registry.IsRecord t)
  (hof : d.registry.recordOf t = .ok record) (hread : d.registry.Readable t (limit + 1))
  (hin : offset + record.size ≤ bytes.length)

include hrecord hof hread hin

omit hword hnested in
/-- The members of a readable record within the buffer are readable and within the buffer. -/
theorem readable_member {f : Field} (hf : f ∈ record.fields) :
    (allArrays f.type = true → d.registry.Readable f.type limit) ∧
      ∃ length, d.registry.memberLength f = .ok length ∧
        offset + f.offset + length ≤ bytes.length := by
  have hself : d.registry.Part t 0 t := Registry.Part.self_of_isRecord hrecord
  obtain ⟨length, hlength⟩ := hread.member_sized hself hrecord hof hf
  have hwithin : f.offset + length ≤ record.size :=
    hread.toWellFormed.member_within hrecord hof hf hlength
  exact ⟨hread.member hrecord hof hf, length, hlength, by omega⟩

/-- A structure within the buffer, by its members, and perhaps by its bytes. -/
theorem succeeds_structView (usage : Usage) (access : String) :
    (d.structView bytes usage nested record offset access).Succeeds := by
  unfold structView
  dsimp only
  refine (succeeds_membersView fun f hf => ?_).bind fun fields _ => ?_
  · obtain ⟨hmember, length, hlength, hwithin⟩ := readable_member hrecord hof hread hin hf
    exact succeeds_fieldView hword hnested hmember hlength hwithin usage access
  · split
    · exact (succeeds_rawBytesView hword hnested hin).bind fun _ _ => succeeds_pure _
    · exact succeeds_pure _

/-- A union within the buffer, by its bytes and its members. -/
theorem succeeds_unionView (usage : Usage) (access : String) :
    (d.unionView bytes usage nested record offset access).Succeeds := by
  unfold unionView
  refine (succeeds_rawBytesView hword hnested hin).bind fun raw _ => ?_
  refine (succeeds_membersView fun f hf => ?_).bind fun _ _ => succeeds_pure _
  obtain ⟨hmember, length, hlength, hwithin⟩ := readable_member hrecord hof hread hin hf
  exact succeeds_unionMemberView hword hnested hmember hlength hwithin usage access

end Record

omit hnested

/-- **Records.** With enough levels a readable record within the buffer is decoded. -/
theorem succeeds_recordView (usage : Usage) (levels : Nat) :
    d.NestedSucceeds bytes levels (d.recordView bytes usage levels) := by
  induction levels with
  | zero =>
    -- without levels no record is readable: it would itself be nested in less than none
    intro t offset access size hrecord hread
    have hself : d.registry.Part t 0 t := Registry.Part.self_of_isRecord hrecord
    exact absurd (hread.nested_lt hself hrecord) (Nat.lt_irrefl 0)
  | succ levels ih =>
    intro t offset access size hrecord hread hsize hin
    obtain ⟨record, hof, hrecordSize⟩ := hrecord.exists_record
    obtain rfl : record.size = size := Except.ok.inj (hrecordSize.symm.trans hsize)
    unfold recordView
    rw [ofLayout_bind_of_ok hof]
    cases record.kind with
    | struct => exact succeeds_structView hword ih hrecord hof hread hin usage access
    | union => exact succeeds_unionView hword ih hrecord hof hread hin usage access

/-! ### Buffers -/

/-- Elements that fill the buffer. -/
theorem succeeds_sequenceView {t : CType} (hlevels : 0 < t.dimension) {usage : Usage}
    (h : d.registry.Readable t d.config.maxDepth) (name : String) :
    (d.sequenceView bytes t usage name).Succeeds := by
  have hnested : d.NestedSucceeds bytes d.config.maxDepth
      (d.recordView bytes usage d.config.maxDepth) := succeeds_recordView hword usage _
  have hfull : 0 + bytes.length ≤ bytes.length := Nat.le_of_eq (Nat.zero_add _)
  unfold sequenceView
  dsimp only
  split
  · exact succeeds_nestedArrayView hword hnested h usage hfull name
  · next hflat =>
    have hpointee : t.pointee = t.baseType := CType.pointee_of_dimension_one (by omega)
    obtain ⟨size, hsize, -⟩ := h.base_sized
    rw [hpointee]
    -- a given count is cut to what the buffer holds
    obtain ⟨length, hlength, hle⟩ : ∃ length,
        d.countedLength t.baseType bytes.length usage = .ok length ∧ length ≤ bytes.length := by
      rw [countedLength, elementSize_eq_sizeOf, hsize]
      cases usage.knownSize? with
      | none => exact ⟨_, rfl, Nat.le_refl _⟩
      | some n => exact ⟨_, rfl, Nat.min_le_left _ _⟩
    rw [ofLayout_bind_of_ok hlength]
    have hbase : d.registry.Readable t.baseType d.config.maxDepth :=
      h.congr (CType.baseType_baseType t)
    exact succeeds_arrayView hword hnested (CType.levels_baseType t) hbase (by omega) name

/-- A value without levels at the start of the buffer. -/
theorem succeeds_decode_base {t : CType} (hlevels : t.levels = []) {usage : Usage}
    (h : d.registry.Readable t d.config.maxDepth) {size : Nat}
    (hsize : d.registry.sizeOf t = .ok size) (hin : size ≤ bytes.length) (name : String) :
    (d.decode bytes t usage name).Succeeds := by
  have hnested : d.NestedSucceeds bytes d.config.maxDepth
      (d.recordView bytes usage d.config.maxDepth) := succeeds_recordView hword usage _
  have hstart : 0 + size ≤ bytes.length := by rw [Nat.zero_add]; exact hin
  have hread := succeeds_elementView hnested hlevels h hsize hstart name
  have hknown := Registry.kindOf_ne_unknown hsize
  -- records are read with all levels, as elements are
  unfold elementView at hread
  unfold decode
  cases hkind : d.registry.kindOf t <;> rw [hkind] at hread
  case functionPointer => exact succeeds_pure _
  case array => exact absurd hread fun ⟨a, ha⟩ => outcome_fail_ne_ok _ a ha
  case objectPointer => exact absurd hread fun ⟨a, ha⟩ => outcome_fail_ne_ok _ a ha
  case unknown => exact absurd hkind hknown
  all_goals exact hread

end Values

/-- **Needed bytes.** A value without levels takes its size, and a pointer that is not followed the
size of a pointer. Arrays, and the elements that a pointer leads to, take what there is. -/
def neededLength (d : Decoder) (t : CType) (usage : Usage) : Except LayoutError Nat :=
  match d.registry.kindOf t with
  | .array | .functionPointer => .ok 0
  | .objectPointer => .ok (if usage = .lazy then d.registry.pointerSize else 0)
  | .primitive | .struct | .union | .enumeration | .unknown => d.registry.sizeOf t

/-- **Progress.** A value of a type whose layouts are readable is decoded from every buffer that has
the needed bytes, whatever they are. -/
theorem decode_progress {t : CType} (h : d.registry.Readable t d.config.maxDepth) (usage : Usage) :
    ∃ n, d.neededLength t usage = .ok n ∧
      ∀ (bytes : Bytes) (name : String), n ≤ bytes.length → bytes.length < Word.limit →
        ∃ view, (d.decode bytes t usage name).outcome = .ok view := by
  have hbase : t.levels = [] → ∃ size, d.registry.sizeOf t = .ok size := by
    intro hlevels
    obtain ⟨size, hsize, -⟩ := h.base_sized
    rw [CType.baseType_of_levels_nil hlevels] at hsize
    exact ⟨size, hsize⟩
  -- a value without levels takes its size
  have hvalue : t.levels = [] → ∃ n, d.registry.sizeOf t = .ok n ∧
      ∀ (bytes : Bytes) (name : String), n ≤ bytes.length → bytes.length < Word.limit →
        ∃ view, (d.decode bytes t usage name).outcome = .ok view := by
    intro hlevels
    obtain ⟨size, hsize⟩ := hbase hlevels
    exact ⟨size, hsize, fun bytes name hin hword =>
      succeeds_decode_base hword hlevels h hsize hin name⟩
  unfold neededLength
  cases hkind : d.registry.kindOf t
  case array =>
    refine ⟨0, rfl, fun bytes name _ hword => ?_⟩
    obtain ⟨length, inner, hlevels⟩ := Registry.kindOf_eq_array_iff.1 hkind
    have hdimension : 0 < t.dimension := by
      rw [CType.dimension, hlevels]
      exact Nat.succ_pos _
    rw [decode, hkind]
    exact succeeds_sequenceView hword hdimension h name
  case objectPointer =>
    refine ⟨_, rfl, fun bytes name hin hword => ?_⟩
    rw [decode, hkind]
    dsimp only
    split
    · next hlazy =>
      -- only a pointer that is not followed has to be in the buffer
      rw [if_pos hlazy] at hin
      exact succeeds_pointerView (by omega)
    · split
      · exact succeeds_pure _
      · obtain ⟨inner, hlevels⟩ := Registry.levels_of_objectPointer hkind
        have hdimension : 0 < t.dimension := by
          rw [CType.dimension, hlevels]
          exact Nat.succ_pos _
        exact succeeds_sequenceView hword hdimension h name
  case functionPointer =>
    refine ⟨0, rfl, fun bytes name _ _ => ?_⟩
    rw [decode, hkind]
    exact succeeds_pure _
  all_goals exact hvalue (Registry.levels_of_kindOf hkind (by decide) (by decide))

/-! ### Samples -/

/-- A corner: two coordinates. -/
def cornerRecord : Record where
  name := "corner"
  kind := .struct
  size := 4
  fields := [⟨"x", .simple "int16_t", 0, none, 0⟩, ⟨"y", .simple "int16_t", 2, none, 0⟩]

/-- Two colors. -/
def colorEnumeration : Enumeration where
  name := "color"
  size := 4
  entries := [⟨"RED", 0⟩, ⟨"BLUE", 1⟩]

/-- A shape: some bits, two corners, a color and the next shape. -/
def shapeRecord : Record where
  name := "shape"
  kind := .struct
  size := 24
  fields := [⟨"bits", .simple "uint32_t", 0, some 3, 2⟩,
    ⟨"corners", (CType.simple "corner").array 2, 4, none, 0⟩,
    ⟨"color", .simple "color", 12, none, 0⟩,
    ⟨"next", (CType.simple "shape").pointer, 16, none, 0⟩]

/-- A flag that is followed by three bits of a color in its last byte. -/
def flagRecord : Record where
  name := "flag"
  kind := .struct
  size := 4
  fields := [⟨"tag", .simple "char", 0, none, 0⟩, ⟨"color", .simple "color", 3, some 3, 0⟩]

/-- A decoder that knows shapes and flags. -/
def shapeDecoder : Decoder where
  registry := .ofLists [cornerRecord, shapeRecord, flagRecord] [colorEnumeration] 8
  method := "draw"

/-- A shape is readable under the usual limit. -/
theorem readable_shape : shapeDecoder.registry.Readable (.simple "shape") 32 :=
  Registry.readable_of_fits
    [(.simple "shape", 2), (.simple "corner", 1), (.simple "color", 0), (.simple "uint32_t", 0),
      (.simple "int16_t", 0)]
    2 (by decide) (by decide) (by decide) (by decide)

/-- A shape from bytes that hold neither a color nor a known address. -/
theorem shape_decode_progress :
    ∃ view,
      (shapeDecoder.decode (List.replicate 24 0xff) (.simple "shape") .parameter "s").outcome =
        .ok view := by
  obtain ⟨n, hneeded, hdecode⟩ := decode_progress readable_shape .parameter
  obtain rfl : 24 = n := Except.ok.inj hneeded
  exact hdecode (List.replicate 24 0xff) "s" (by decide) (by decide)

/-- The bytes that the declaration of a member touches, by the width of a bit field of any type. -/
def declaredLength (d : Decoder) (f : Field) : Except LayoutError Nat :=
  match f.bitSize with
  | some width => .ok ((f.bitOffset + width + 7) / 8)
  | none => d.registry.sizeOf f.type

/-- **A narrow enumeration.** The declared bits of all members lie within the record and the buffer
holds the record, but the enumeration is read whole and not by its bits. -/
theorem exists_narrow_enumeration :
    shapeDecoder.registry.sizeOf (.simple "flag") = .ok 4 ∧
      (∀ f ∈ flagRecord.fields, ∃ length,
        shapeDecoder.declaredLength f = .ok length ∧ f.offset + length ≤ flagRecord.size) ∧
      (shapeDecoder.decode [97, 0, 0, 1] (.simple "flag") .parameter "f").outcome =
        .error (.outOfBounds 3 4 4) := by
  refine ⟨rfl, fun f hf => ?_, rfl⟩
  obtain rfl | rfl : f = ⟨"tag", .simple "char", 0, none, 0⟩ ∨
      f = ⟨"color", .simple "color", 3, some 3, 0⟩ := by simpa [flagRecord] using hf
  · exact ⟨1, rfl, by decide⟩
  · exact ⟨1, rfl, by decide⟩

end Decoder

end SymVec

import SymVec.Proofs.Tracing
import SymVec.Proofs.ValueLayouts
import SymVec.Decoder.Value

/-!
# Windows of a buffer

A part of a buffer can be decoded where it lies, or cut out first and decoded as a buffer of its
own. If the layouts are well-formed and the value lies within the part, then what the first yields,
the second yields too: nothing outside the part is read, and the paths of references do not tell
where a value lies. The second may succeed where the first does not, since a value on its own has
all the levels of nesting to itself.

* `Decoder.agrees_recordView` — records in a window, by induction on how deep they may be nested;
* `Decoder.agrees_elementView`, `Decoder.agrees_fieldView` — elements of arrays and members.
-/

namespace SymVec

namespace Bytes

/-- **Window.** The `length` bytes from `base` on. -/
def window (bytes : Bytes) (base length : Nat) : Bytes := (bytes.drop base).take length

theorem length_window {bytes : Bytes} {base length : Nat} (h : base + length ≤ bytes.length) :
    (bytes.window base length).length = length := by
  rw [window, List.length_take, List.length_drop]
  omega

/-- A window of a window is a window of the buffer. -/
theorem window_window {bytes : Bytes} {base length offset n : Nat} (h : offset + n ≤ length) :
    (bytes.window base length).window offset n = bytes.window (base + offset) n := by
  rw [window, window, window, List.drop_take, List.take_take, List.drop_drop]
  congr 1
  omega

end Bytes

/-- What lies within the buffer can be read. -/
theorem readBytes_of_within {bytes : Bytes} {offset n : Nat} (h : offset + n ≤ bytes.length) :
    readBytes bytes offset n = pure (bytes.window offset n) := by
  rw [readBytes, Bytes.slice?, if_pos h, Bytes.window]

/-- What is read is a window of the buffer. -/
theorem outcome_readBytes_eq_ok_iff {bytes run : Bytes} {offset n : Nat} :
    (readBytes bytes offset n).outcome = .ok run ↔
      offset + n ≤ bytes.length ∧ bytes.window offset n = run := by
  rw [outcome_readBytes, Bytes.window]
  split
  · next h => simp [h]
  · next h => simp [h]

namespace Decoder

open Traced

variable {d : Decoder} {bytes : Bytes} {base length : Nat}

/-- A decoder of nested records in a window yields what another yields in the whole buffer, for
well-formed records that lie in the window. -/
def NestedAgrees (d : Decoder) (base length : Nat) (nested nested' : Nested) : Prop :=
  ∀ (t : CType) (offset : Nat) (access : String), d.registry.IsRecord t →
    d.registry.WellFormed t →
      (∀ size, d.registry.sizeOf t = .ok size → offset + size ≤ length) →
        Agrees (nested t (base + offset) access) (nested' t offset access)

section Window

variable (hwindow : base + length ≤ bytes.length)

include hwindow

/-! ### Scalars -/

/-- What lies in the window is read from it. -/
theorem readBytes_window {offset n : Nat} (h : offset + n ≤ length) :
    readBytes (bytes.window base length) offset n = readBytes bytes (base + offset) n := by
  have hinner : offset + n ≤ (bytes.window base length).length := by
    rw [Bytes.length_window hwindow]
    exact h
  -- a window of the window is a window of the whole buffer
  rw [readBytes_of_within hinner, readBytes_of_within (by omega), Bytes.window_window h]

/-- A primitive value within the window. -/
theorem primitiveView_window {t : CType} {offset : Nat}
    (h : ∀ p, t.primitive? = some p → offset + p.size ≤ length) :
    primitiveView (bytes.window base length) t offset = primitiveView bytes t (base + offset) := by
  unfold primitiveView
  split
  · rfl
  · next p hp => rw [readBytes_window hwindow (h p hp)]

/-- A bit field whose bytes lie in the window. -/
theorem bitFieldView_window {f : Field} {p : Primitive} {offset : Nat}
    (h : offset + (f.bitOffset + f.bitSize.getD (8 * p.size) + 7) / 8 ≤ length) :
    bitFieldView (bytes.window base length) f p offset =
      bitFieldView bytes f p (base + offset) := by
  -- a sum of bits that is no machine word only makes the read shorter
  have htouched := Word.addSaturating_le f.bitOffset (f.bitSize.getD (8 * p.size))
  unfold bitFieldView
  dsimp only
  rw [readBytes_window hwindow (by omega)]

/-- An enumerator within the window. -/
theorem enumerationView_window {t : CType} {offset : Nat}
    (h : ∀ e, d.registry.enumerationOf t = .ok e → offset + e.size ≤ length) :
    d.enumerationView (bytes.window base length) t offset =
      d.enumerationView bytes t (base + offset) := by
  unfold enumerationView
  cases he : d.registry.enumerationOf t with
  | error e => rfl
  | ok e =>
    rw [ofLayout_bind_of_ok rfl, ofLayout_bind_of_ok rfl, readBytes_window hwindow (h e he)]

/-- A pointer within the window. -/
theorem pointerView_window {t : CType} {offset : Nat} {access : String}
    (h : offset + d.registry.pointerSize ≤ length) :
    d.pointerView (bytes.window base length) t offset access =
      d.pointerView bytes t (base + offset) access := by
  unfold pointerView
  rw [readBytes_window hwindow h]

/-! ### Arrays -/

variable {nested nested' : Nested} (hnested : d.NestedAgrees base length nested nested')

include hnested

/-- An element within the window. -/
theorem agrees_elementView {t : CType} (hwell : d.registry.WellFormed t) {size offset : Nat}
    (hsize : d.registry.sizeOf t = .ok size) (hin : offset + size ≤ length) (access : String) :
    Agrees (d.elementView bytes nested (d.registry.kindOf t) t (base + offset) access)
      (d.elementView (bytes.window base length) nested' (d.registry.kindOf t) t offset access) := by
  -- the type has one size only
  have hinside : ∀ n, d.registry.sizeOf t = .ok n → offset + n ≤ length := by
    intro n hn
    obtain rfl : size = n := Except.ok.inj (hsize.symm.trans hn)
    exact hin
  unfold elementView
  cases hkind : d.registry.kindOf t <;> dsimp only
  case primitive =>
    obtain ⟨p, hp, hsizeOf⟩ := Registry.primitive_of_kindOf hkind
    refine Agrees.of_eq (primitiveView_window hwindow fun p' hp' => ?_)
    obtain rfl : p = p' := Option.some.inj (hp.symm.trans hp')
    exact hinside _ hsizeOf
  case enumeration =>
    obtain ⟨e, he, hsizeOf⟩ := Registry.enumeration_of_kindOf hkind
    refine Agrees.of_eq (enumerationView_window hwindow fun e' he' => ?_)
    obtain rfl : e = e' := Except.ok.inj (he.symm.trans he')
    exact hinside _ hsizeOf
  case struct => exact hnested t offset access (Or.inl hkind) hwell hinside
  case union => exact hnested t offset access (Or.inr hkind) hwell hinside
  case functionPointer => exact Agrees.of_eq rfl
  all_goals exact agrees_fail _ _

/-- Elements that end within the window. -/
theorem agrees_arrayElements {t : CType} (hwell : d.registry.WellFormed t) {offset n : Nat}
    (hin : offset + n ≤ length) (access : String) :
    Agrees (d.arrayElements bytes nested t (base + offset) n access)
      (d.arrayElements (bytes.window base length) nested' t offset n access) := by
  unfold arrayElements
  dsimp only
  split
  · exact agrees_fail _ _
  · refine (Agrees.of_eq rfl).bind fun size hsize => ?_
    rw [outcome_ofLayout_eq_ok_iff, elementSize_eq_sizeOf] at hsize
    split
    · exact agrees_fail _ _
    · rw [eachFrom_eq_mapM, eachFrom_eq_mapM]
      refine Agrees.mapM fun i hi => ?_
      -- each of them ends before the array does
      have hfit : i * size + size ≤ n := element_within (by simpa using hi)
      cases hplace : (Word.mul? i size).bind (Word.add? (base + offset)) with
      | none => exact agrees_fail _ _
      | some place =>
        -- no overflow in the buffer, and so none in the window
        obtain ⟨hword, rfl⟩ := elementPlace_eq_some_iff.1 hplace
        have hplace' : (Word.mul? i size).bind (Word.add? offset) = some (offset + i * size) :=
          elementPlace_eq_some_iff.2 ⟨by omega, rfl⟩
        rw [hplace', Nat.add_assoc base]
        exact agrees_elementView hwindow hnested hwell hsize (by omega) _

theorem agrees_arrayView {t : CType} (hwell : d.registry.WellFormed t) {offset n : Nat}
    (hin : offset + n ≤ length) (access : String) :
    Agrees (d.arrayView bytes nested t (base + offset) n access)
      (d.arrayView (bytes.window base length) nested' t offset n access) :=
  (agrees_arrayElements hwindow hnested hwell hin access).bind fun _ _ => Agrees.of_eq rfl

theorem agrees_nestedArrayView {t : CType} (hwell : d.registry.WellFormed t) {offset n : Nat}
    (hin : offset + n ≤ length) (usage : Usage) (access : String) :
    Agrees (d.nestedArrayView bytes nested usage t (base + offset) n access)
      (d.nestedArrayView (bytes.window base length) nested' usage t offset n access) := by
  have hbase : d.registry.WellFormed t.baseType := hwell.congr (CType.baseType_baseType t)
  exact (agrees_arrayElements hwindow hnested hbase hin access).bind fun _ _ => Agrees.of_eq rfl

/-! ### Members -/

/-- An array within the window, well-formed if its elements are stored in it. -/
theorem agrees_arrayFieldView {t : CType} (harray : d.registry.kindOf t = .array)
    (hwell : allArrays t = true → d.registry.WellFormed t) {offset : Nat}
    (hin : ∀ size, d.registry.sizeOf t = .ok size → offset + size ≤ length) (usage : Usage)
    (access : String) :
    Agrees (d.arrayFieldView bytes usage nested t (base + offset) access)
      (d.arrayFieldView (bytes.window base length) usage nested' t offset access) := by
  unfold arrayFieldView
  refine (Agrees.of_eq rfl).bind fun size hsize => ?_
  rw [outcome_ofLayout_eq_ok_iff] at hsize
  split
  · next hone =>
    have harrays : allArrays t = true := allArrays_of_dimension_one harray hone
    have hpointee : d.registry.WellFormed t.pointee := by
      refine (hwell harrays).congr ?_
      rw [CType.pointee_of_dimension_one hone, CType.baseType_baseType]
    exact agrees_arrayView hwindow hnested hpointee (hin size hsize) access
  · split
    · next harrays =>
      exact agrees_nestedArrayView hwindow hnested (hwell harrays) (hin size hsize) usage access
    · exact Agrees.of_eq rfl

/-- A member of a record that lies within the window. -/
theorem agrees_fieldView {record : Record} {f : Field} {offset : Nat}
    (hwell : allArrays f.type = true → d.registry.WellFormed f.type)
    (hin : ∀ n, d.registry.memberLength f = .ok n → offset + f.offset + n ≤ length)
    (usage : Usage) (access : String) :
    Agrees (d.fieldView bytes usage nested record f (base + offset) access)
      (d.fieldView (bytes.window base length) usage nested' record f offset access) := by
  unfold fieldView
  cases hplace : Word.add? (base + offset) f.offset with
  | none => exact agrees_fail _ _
  | some place =>
    -- no overflow in the buffer, and so none in the window
    obtain ⟨hword, rfl⟩ := Word.add?_eq_some_iff.1 hplace
    have hplace' : Word.add? offset f.offset = some (offset + f.offset) :=
      Word.add?_eq_some_iff.2 ⟨by omega, rfl⟩
    rw [hplace', Nat.add_assoc base]
    have hsized : d.registry.kindOf f.type ≠ .primitive → ∀ n,
        d.registry.sizeOf f.type = .ok n → offset + f.offset + n ≤ length := by
      intro hkind n hn
      exact hin n ((Registry.memberLength_of_kindOf hkind).trans hn)
    have hbase : f.type.levels = [] → d.registry.WellFormed f.type := by
      intro hlevels
      exact hwell (by rw [allArrays, hlevels]; rfl)
    dsimp only
    cases hkind : d.registry.kindOf f.type <;> dsimp only
    case primitive =>
      obtain ⟨p, hp, hsize⟩ := Registry.primitive_of_kindOf hkind
      have hbits := Registry.readsBits_of_primitive hkind hp
      rw [hp]
      dsimp only
      split
      · -- the member takes the bytes that its bits touch
        next hbit =>
        obtain ⟨width, hwidth⟩ := f.exists_width_of_isBitField hbit
        refine Agrees.of_eq (bitFieldView_window hwindow ?_)
        have hlength := hin _ (by rw [Registry.memberLength, hbits, hbit, if_pos rfl])
        simpa [hwidth] using hlength
      · next hwhole =>
        refine Agrees.of_eq (primitiveView_window hwindow fun p' hp' => ?_)
        obtain rfl : p = p' := Option.some.inj (hp.symm.trans hp')
        exact hin _ (by rw [Registry.memberLength, hbits, if_neg hwhole, hsize])
    case struct =>
      exact hnested _ _ _ (Or.inl hkind) (hbase (Registry.IsRecord.levels (Or.inl hkind)))
        (hsized (by simp [hkind]))
    case union =>
      exact hnested _ _ _ (Or.inr hkind) (hbase (Registry.IsRecord.levels (Or.inr hkind)))
        (hsized (by simp [hkind]))
    case enumeration =>
      obtain ⟨e, he, hsize⟩ := Registry.enumeration_of_kindOf hkind
      refine Agrees.of_eq (enumerationView_window hwindow fun e' he' => ?_)
      obtain rfl : e = e' := Except.ok.inj (he.symm.trans he')
      exact hsized (by simp [hkind]) _ hsize
    case array =>
      exact agrees_arrayFieldView hwindow hnested hkind hwell (hsized (by simp [hkind])) usage _
    case objectPointer =>
      have hsize := Registry.sizeOf_of_objectPointer hkind
      exact Agrees.of_eq (pointerView_window hwindow (hsized (by simp [hkind]) _ hsize))
    case functionPointer => exact Agrees.of_eq rfl
    case unknown => exact agrees_fail _ _

/-- A member of a union, of which a pointer is not read. -/
theorem agrees_unionMemberView {record : Record} {f : Field} {offset : Nat}
    (hwell : allArrays f.type = true → d.registry.WellFormed f.type)
    (hin : ∀ n, d.registry.memberLength f = .ok n → offset + f.offset + n ≤ length)
    (usage : Usage) (access : String) :
    Agrees (d.unionMemberView bytes usage nested record f (base + offset) access)
      (d.unionMemberView (bytes.window base length) usage nested' record f offset access) := by
  unfold unionMemberView
  split
  · exact Agrees.of_eq rfl
  · exact agrees_fieldView hwindow hnested hwell hin usage access

omit hwindow hnested in
/-- Members in a row. -/
theorem agrees_membersView {member member' : Field → Traced View} {fields : List Field}
    (h : ∀ f ∈ fields, Agrees (member f) (member' f)) :
    Agrees (membersView member fields) (membersView member' fields) :=
  Agrees.mapM fun f hf => (h f hf).bind fun _ _ => Agrees.of_eq rfl

/-! ### Records -/

/-- The raw bytes of a record, which are no records themselves. -/
theorem agrees_rawBytesView {offset size : Nat} (hin : offset + size ≤ length) :
    Agrees (d.rawBytesView bytes nested (base + offset) size)
      (d.rawBytesView (bytes.window base length) nested' offset size) := by
  have hraw : d.registry.WellFormed .rawByte :=
    Registry.wellFormed_of_not_isRecord (Registry.not_isRecord_rawByte _)
  exact agrees_arrayView hwindow hnested hraw hin ""

section Record

variable {t : CType} {record : Record} {offset : Nat} (hrecord : d.registry.IsRecord t)
  (hof : d.registry.recordOf t = .ok record) (hwell : d.registry.WellFormed t)
  (hin : offset + record.size ≤ length)

include hrecord hof hwell hin

omit hwindow hnested in
/-- The members of a well-formed record that lies within the window lie within it, too. -/
theorem member_within_window {f : Field} (hf : f ∈ record.fields) {n : Nat}
    (hn : d.registry.memberLength f = .ok n) : offset + f.offset + n ≤ length := by
  have hmember := hwell.member_within hrecord hof hf hn
  omega

/-- A structure within the window. -/
theorem agrees_structView (usage : Usage) (access : String) :
    Agrees (d.structView bytes usage nested record (base + offset) access)
      (d.structView (bytes.window base length) usage nested' record offset access) := by
  unfold structView
  dsimp only
  refine (agrees_membersView fun f hf => ?_).bind fun fields _ => ?_
  · exact agrees_fieldView hwindow hnested (hwell.member hrecord hof hf)
      (fun n hn => member_within_window hrecord hof hwell hin hf hn) usage access
  · split
    · exact (agrees_rawBytesView hwindow hnested hin).bind fun _ _ => Agrees.of_eq rfl
    · exact Agrees.of_eq rfl

/-- A union within the window. -/
theorem agrees_unionView (usage : Usage) (access : String) :
    Agrees (d.unionView bytes usage nested record (base + offset) access)
      (d.unionView (bytes.window base length) usage nested' record offset access) := by
  unfold unionView
  refine (agrees_rawBytesView hwindow hnested hin).bind fun raw _ => ?_
  refine (agrees_membersView fun f hf => ?_).bind fun _ _ => Agrees.of_eq rfl
  exact agrees_unionMemberView hwindow hnested (hwell.member hrecord hof hf)
    (fun n hn => member_within_window hrecord hof hwell hin hf hn) usage access

end Record

omit hnested

/-- **Records** in a window: what is decoded in the whole buffer with some levels of nesting is
decoded in the window with as many levels or more. -/
theorem agrees_recordView (usage : Usage) {levels levels' : Nat} (hlevels : levels ≤ levels') :
    d.NestedAgrees base length (d.recordView bytes usage levels)
      (d.recordView (bytes.window base length) usage levels') := by
  induction levels generalizing levels' with
  -- without levels nothing is decoded in the whole buffer
  | zero => exact fun _ _ _ _ _ _ => agrees_fail _ _
  | succ levels ih =>
    obtain ⟨levels', rfl⟩ : ∃ n, levels' = n + 1 := ⟨levels' - 1, by omega⟩
    -- the records nested in this one agree with a level less
    have hnested : d.NestedAgrees base length (d.recordView bytes usage levels)
        (d.recordView (bytes.window base length) usage levels') := ih (by omega)
    intro t offset access hrecord hwell hin
    obtain ⟨record, hof, hsize⟩ := hrecord.exists_record
    unfold recordView
    rw [hof]
    refine (Agrees.of_eq rfl).bind fun found hfound => ?_
    rw [outcome_ofLayout_eq_ok_iff] at hfound
    cases hfound
    cases hkind : record.kind with
    | struct =>
      exact agrees_structView hwindow hnested hrecord hof hwell (hin _ hsize) usage access
    | union =>
      exact agrees_unionView hwindow hnested hrecord hof hwell (hin _ hsize) usage access

end Window

end Decoder

end SymVec

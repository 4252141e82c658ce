import SymVec.Proofs.KnownAddresses
import SymVec.Proofs.ScalarRows
import SymVec.Proofs.Usages

/-!
# Values rebuilt from their bytes

A union, and a structure with an anonymous member, is written as a value that is rebuilt from its
raw bytes. The bytes are read as an array of their own, from where the record starts up to its size,
whatever its members are. So the literal tells exactly these bytes: as many numbers as the record
has bytes, from which the bytes are read back.

The members are kept beside the raw bytes as readings of the same place in the buffer. The bytes of
the record may be cut out and decoded on their own. Where that succeeds, it yields the same view,
since all bytes behind the place of the record cover both: what is read in either is read in them at
the same distance from the start. In well-formed layouts it does succeed.

* `Decoder.byte_of_rawElements` — one raw byte;
* `Literal.signedBytes_injective` — the bytes are read back from the literal;
* `Decoder.Covers.recordView` — records from a place that is covered by another, by induction on how
  deep they may be nested;
* `Decoder.eq_of_recordView_window` — a record and what is cut out at its place have one view;
* `Decoder.rebuilt_from_bytes` — unions and structures with an anonymous member.
-/

namespace SymVec

/-! ### Literals of raw bytes -/

namespace Literal

/-- **Raw bytes** between braces, each as a number with a sign. -/
def signedBytes (run : Bytes) : String :=
  View.braced (run.map fun b => toString b.toInt8.toInt)

/-- The type of a raw byte. -/
def bytePrimitive : Primitive := ⟨1, .byte, true⟩

/-- A raw byte is written with a sign. -/
theorem scalar_byte (b : UInt8) :
    scalar (Bytes.word [b]) 8 bytePrimitive Primitive.byteName = toString b.toInt8.toInt := by
  have hword : Bytes.word [b] = b.toNat := by simp [Bytes.word]
  have hsigned : Word.toSigned b.toNat 8 = b.toInt8.toInt := by
    rw [Word.toSigned, if_neg (by decide), Int8.toInt, BitVec.toInt_eq_toNat_bmod]
    rfl
  rw [← hsigned, ← hword]
  rfl

/-- The numbers of raw bytes are read back from their literal. -/
theorem readRow?_signedBytes (run : Bytes) :
    readRow? bytePrimitive Primitive.byteName (signedBytes run) = some (run.map UInt8.toNat) := by
  have hfind : Primitive.find? Primitive.byteName = some bytePrimitive := rfl
  have hlength : ∀ single ∈ run.map ([·]), single.length = bytePrimitive.size := by
    intro single hsingle
    obtain ⟨b, -, rfl⟩ := List.mem_map.1 hsingle
    rfl
  have hread := readRow?_braced hfind rfl hlength
  -- a run of a single byte is written as the byte, and its number is that of the byte
  have hitems : ((run.map ([·])).map fun single =>
      scalar (Bytes.word single) (8 * bytePrimitive.size) bytePrimitive Primitive.byteName) =
      run.map fun b => toString b.toInt8.toInt := by
    rw [List.map_map]
    exact List.map_congr_left fun b _ => scalar_byte b
  have hvalues : (run.map ([·])).map Bytes.value = run.map UInt8.toNat := by
    rw [List.map_map]
    exact List.map_congr_left fun b _ => by simp
  rwa [hitems, hvalues] at hread

/-- **Bytes are read back:** runs with the same literal are the same. -/
theorem signedBytes_injective {run run' : Bytes} (h : signedBytes run = signedBytes run') :
    run = run' := by
  have hread := congrArg (readRow? bytePrimitive Primitive.byteName) h
  rw [readRow?_signedBytes, readRow?_signedBytes] at hread
  exact List.map_injective_iff.2 (fun b b' => UInt8.toNat_inj.1) (Option.some.inj hread)

/-- Values of one type that are rebuilt from bytes differ as their bytes do. -/
theorem fromBytes_inj {type bytes bytes' : String} :
    fromBytes type bytes = fromBytes type bytes' ↔ bytes = bytes' := by
  constructor
  · intro h
    -- the call and the braces around the bytes are the same
    have hclosed := (String.append_left_inj _).1 h
    exact (String.append_right_inj _).1 hclosed
  · intro h
    rw [h]

end Literal

/-- Whether values of the record are written as their raw bytes. -/
def Record.isRebuilt (record : Record) : Bool :=
  record.kind = .union || record.hasAnonymousMember

namespace Decoder

open Traced

variable {d : Decoder} {bytes bytes' : Bytes}

/-! ### Raw bytes of a record -/

/-- **One raw byte.** The element at a place of the raw bytes is the byte at that place. -/
theorem byte_of_rawElements {nested : Nested} {offset size : Nat} {elements : List View}
    (h : (d.arrayElements bytes nested .rawByte offset size "").outcome = .ok elements) :
    elements.length = size ∧ ∀ i < size, ∃ b, bytes[offset + i]? = some b ∧
      elements[i]? = some (.primitive (toString b.toInt8.toInt)) := by
  have hsteps := h
  rw [arrayElements_eq_mapM rfl rfl Nat.one_pos, Nat.div_one, outcome_mapM_eq_ok_iff] at hsteps
  have hlength : elements.length = size := by
    rw [← hsteps.length_eq, List.length_range]
  refine ⟨hlength, fun i hi => ?_⟩
  have hstep := hsteps.get (by simpa using hi) (by omega)
  rw [List.get_eq_getElem, List.getElem_range] at hstep
  unfold elementStep at hstep
  split at hstep
  · exact absurd hstep (outcome_fail_ne_ok _ _)
  next place hplace =>
  obtain ⟨-, rfl⟩ := elementPlace_eq_some_iff.1 hplace
  rw [Nat.mul_one] at hstep
  obtain ⟨run, hrun, hstep⟩ := outcome_bind_eq_ok_iff.1 hstep
  obtain ⟨hin, hwindow⟩ := outcome_readBytes_eq_ok_iff.1 hrun
  have hbyte : offset + i < bytes.length := hin
  -- the run at a place is the one byte there
  have hone : run = [bytes[offset + i]] := by
    rw [← hwindow, Bytes.window, List.drop_eq_getElem_cons hbyte]
    rfl
  refine ⟨bytes[offset + i], List.getElem?_eq_getElem hbyte, ?_⟩
  rw [List.getElem?_eq_getElem (by omega), ← Literal.scalar_byte, ← hone]
  exact congrArg some (Except.ok.inj hstep).symm

/-- **Raw bytes.** All bytes of the record are in the buffer, and their literal is made of them. -/
theorem literal_rawBytesView {nested : Nested} {offset size : Nat} {raw : View}
    (h : (d.rawBytesView bytes nested offset size).outcome = .ok raw) :
    (bytes.window offset size).length = size ∧
      raw.literal = Literal.signedBytes (bytes.window offset size) := by
  obtain ⟨elements, helements, hraw⟩ := outcome_bind_eq_ok_iff.1 h
  obtain rfl := Except.ok.inj hraw
  obtain ⟨hcount, hbyte⟩ := byte_of_rawElements helements
  have hwindow (i : Nat) (hi : i < size) :
      (bytes.window offset size)[i]? = bytes[offset + i]? := by
    rw [Bytes.window, List.getElem?_take_of_lt hi, List.getElem?_drop]
  have hlength : (bytes.window offset size).length = size := by
    cases size with
    | zero => rw [Bytes.window, List.take_zero, List.length_nil]
    | succ last =>
      -- the last byte is in the buffer, and so are all before it
      obtain ⟨b, hb, -⟩ := hbyte last (Nat.lt_succ_self last)
      obtain ⟨hlast, -⟩ := List.getElem?_eq_some_iff.1 hb
      exact Bytes.length_window hlast
  refine ⟨hlength, ?_⟩
  -- element by element, and behind the last one there is none on either side
  have hliterals : elements.map View.literal =
      (bytes.window offset size).map fun b => toString b.toInt8.toInt := by
    apply List.ext_getElem?
    intro i
    rw [List.getElem?_map, List.getElem?_map]
    rcases Nat.lt_or_ge i size with hi | hi
    · obtain ⟨b, hb, helement⟩ := hbyte i hi
      rw [helement, hwindow i hi, hb]
      rfl
    · rw [List.getElem?_eq_none (by omega), List.getElem?_eq_none (by omega)]
      rfl
  rw [View.literal, View.literals_eq_map, hliterals]
  rfl

/-- **Step for a member** of a record at `offset`, by the kind of the record. -/
def recordMemberView (d : Decoder) (bytes : Bytes) (usage : Usage) (nested : Nested)
    (record : Record) (f : Field) (offset : Nat) (access : String) : Traced View :=
  match record.kind with
  | .struct => d.fieldView bytes usage nested record f offset access
  | .union => d.unionMemberView bytes usage nested record f offset access

/-- **A record that is decoded** has its members as parts. If it is rebuilt, then its raw bytes are
read, and its literal is made of theirs. -/
theorem exists_of_recordView {usage : Usage} {levels offset : Nat} {t : CType} {access : String}
    {record : Record} (hof : d.registry.recordOf t = .ok record) {view : View}
    (h : (d.recordView bytes usage (levels + 1) t offset access).outcome = .ok view) :
    List.Forall₂ (fun f child => (d.recordMemberView bytes usage (d.recordView bytes usage levels)
        record f offset access).outcome = .ok child) record.fields view.children ∧
      (record.isRebuilt = true → ∃ raw,
        (d.rawBytesView bytes (d.recordView bytes usage levels) offset record.size).outcome =
          .ok raw ∧
        view.literal = Literal.fromBytes (identifier record.name) raw.literal) := by
  rw [recordView, ofLayout_bind_of_ok hof] at h
  unfold recordMemberView Record.isRebuilt
  cases hkind : record.kind <;> rw [hkind] at h <;> dsimp only at h ⊢
  case struct =>
    obtain ⟨fields, hfields, h⟩ := outcome_bind_eq_ok_iff.1 h
    obtain ⟨hmembers, -⟩ := members_of_membersView hfields
    have hchildren : List.Forall₂ (fun f child => (d.fieldView bytes usage
        (d.recordView bytes usage levels) record f offset access).outcome = .ok child)
        record.fields (fields.map (·.2)) :=
      List.forall₂_map_right_iff.2 (hmembers.imp fun _ _ hchild => hchild.2)
    -- only a structure with an anonymous member reads its raw bytes
    cases hanonymous : record.hasAnonymousMember <;> rw [hanonymous] at h
    · cases h
      exact ⟨hchildren, fun hrebuilt => absurd hrebuilt (by decide)⟩
    · obtain ⟨raw, hraw, h⟩ := outcome_bind_eq_ok_iff.1 h
      cases h
      exact ⟨hchildren, fun _ => ⟨raw, hraw, rfl⟩⟩
  case union =>
    obtain ⟨raw, hraw, h⟩ := outcome_bind_eq_ok_iff.1 h
    obtain ⟨members, hmembers, h⟩ := outcome_bind_eq_ok_iff.1 h
    obtain ⟨hmembers, -⟩ := members_of_membersView hmembers
    cases h
    exact ⟨List.forall₂_map_right_iff.2 (hmembers.imp fun _ _ hchild => hchild.2),
      fun _ => ⟨raw, hraw, rfl⟩⟩

/-! ### Places with the same bytes -/

/-- **Covering.** What can be read from a place in one buffer on can be read at the same distance
from a place in the other, and is the same there. -/
structure Covers (bytes bytes' : Bytes) (base base' : Nat) : Prop where
  le : base' ≤ base
  within : ∀ {offset n}, base + offset + n ≤ bytes.length →
    base' + offset + n ≤ bytes'.length ∧
      bytes'.window (base' + offset) n = bytes.window (base + offset) n

/-- The bytes from a place on cover this place. -/
theorem covers_drop (bytes : Bytes) (base : Nat) : Covers bytes (bytes.drop base) base 0 where
  le := Nat.zero_le base
  within h := by
    refine ⟨by rw [List.length_drop]; omega, ?_⟩
    rw [Bytes.window, Bytes.window, List.drop_drop, Nat.zero_add]

/-- What is cut out of a buffer is covered by all bytes from there on. -/
theorem covers_window (bytes : Bytes) (base length : Nat) :
    Covers (bytes.window base length) (bytes.drop base) 0 0 where
  le := Nat.le_refl 0
  within h := by
    have hlength := h
    rw [Bytes.window, List.length_take] at hlength
    refine ⟨by omega, ?_⟩
    rw [Bytes.window, Bytes.window, Bytes.window, List.drop_take, List.take_take]
    congr 1
    omega

/-- A decoder of nested records from the one place yields what another yields from the place that
covers it. -/
def NestedCovers (base base' : Nat) (nested nested' : Nested) : Prop :=
  ∀ (t : CType) (offset : Nat) (access : String),
    Agrees (nested t (base + offset) access) (nested' t (base' + offset) access)

section Covers

variable {base base' : Nat} (h : Covers bytes bytes' base base')

include h

/-! ### Scalars -/

/-- What is read in the one buffer is read in the other. -/
theorem Covers.readBytes (offset n : Nat) :
    Agrees (SymVec.readBytes bytes (base + offset) n)
      (SymVec.readBytes bytes' (base' + offset) n) := by
  intro run hrun
  obtain ⟨hin, -⟩ := outcome_readBytes_eq_ok_iff.1 hrun
  obtain ⟨hin', hsame⟩ := h.within hin
  rw [readBytes_of_within hin, readBytes_of_within hin', hsame]

theorem Covers.primitiveView (t : CType) (offset : Nat) :
    Agrees (Decoder.primitiveView bytes t (base + offset))
      (Decoder.primitiveView bytes' t (base' + offset)) := by
  unfold Decoder.primitiveView
  split
  · exact agrees_fail _ _
  · exact (h.readBytes _ _).bind fun _ _ => Agrees.of_eq rfl

theorem Covers.bitFieldView (f : Field) (p : Primitive) (offset : Nat) :
    Agrees (Decoder.bitFieldView bytes f p (base + offset))
      (Decoder.bitFieldView bytes' f p (base' + offset)) :=
  (h.readBytes _ _).bind fun _ _ => Agrees.of_eq rfl

theorem Covers.enumerationView (t : CType) (offset : Nat) :
    Agrees (d.enumerationView bytes t (base + offset))
      (d.enumerationView bytes' t (base' + offset)) :=
  (Agrees.of_eq rfl).bind fun _ _ => (h.readBytes _ _).bind fun _ _ => Agrees.of_eq rfl

theorem Covers.pointerView (t : CType) (offset : Nat) (access : String) :
    Agrees (d.pointerView bytes t (base + offset) access)
      (d.pointerView bytes' t (base' + offset) access) :=
  (h.readBytes _ _).bind fun _ _ => Agrees.of_eq rfl

/-! ### Arrays -/

variable {nested nested' : Nested} (hnested : NestedCovers base base' nested nested')

include hnested

/-- Elements, by their kind. -/
theorem Covers.elementView (kind : CType.Kind) (t : CType) (offset : Nat) (access : String) :
    Agrees (d.elementView bytes nested kind t (base + offset) access)
      (d.elementView bytes' nested' kind t (base' + offset) access) := by
  cases kind with
  | primitive => exact h.primitiveView t offset
  | enumeration => exact h.enumerationView t offset
  | struct | union => exact hnested t offset access
  | functionPointer => exact Agrees.of_eq rfl
  | array | objectPointer | unknown => exact agrees_fail _ _

/-- Elements stay at the same distances from their places. -/
theorem Covers.arrayElements (t : CType) (offset n : Nat) (access : String) :
    Agrees (d.arrayElements bytes nested t (base + offset) n access)
      (d.arrayElements bytes' nested' t (base' + offset) n access) := by
  have hle := h.le
  unfold Decoder.arrayElements
  dsimp only
  split
  · exact agrees_fail _ _
  · refine (Agrees.of_eq rfl).bind fun size _ => ?_
    split
    · exact agrees_fail _ _
    · rw [eachFrom_eq_mapM, eachFrom_eq_mapM]
      refine Agrees.mapM fun i _ => ?_
      cases hplace : (Word.mul? i size).bind (Word.add? (base + offset)) with
      | none => exact agrees_fail _ _
      | some place =>
        -- no overflow behind the one place, and so none behind the other
        obtain ⟨hword, rfl⟩ := elementPlace_eq_some_iff.1 hplace
        have hplace' : (Word.mul? i size).bind (Word.add? (base' + offset)) =
            some (base' + offset + i * size) :=
          elementPlace_eq_some_iff.2 ⟨by omega, rfl⟩
        rw [hplace', Nat.add_assoc, Nat.add_assoc]
        exact h.elementView hnested _ t _ _

theorem Covers.arrayView (t : CType) (offset n : Nat) (access : String) :
    Agrees (d.arrayView bytes nested t (base + offset) n access)
      (d.arrayView bytes' nested' t (base' + offset) n access) :=
  (h.arrayElements hnested t offset n access).bind fun _ _ => Agrees.of_eq rfl

/-! ### Members -/

theorem Covers.arrayFieldView (usage : Usage) (t : CType) (offset : Nat) (access : String) :
    Agrees (d.arrayFieldView bytes usage nested t (base + offset) access)
      (d.arrayFieldView bytes' usage nested' t (base' + offset) access) := by
  refine (Agrees.of_eq rfl).bind fun size _ => ?_
  split
  · exact h.arrayView hnested _ _ _ _
  · split
    · exact (h.arrayElements hnested _ _ _ _).bind fun _ _ => Agrees.of_eq rfl
    · exact Agrees.of_eq rfl

/-- **Members** stay at the same distances from their records. -/
theorem Covers.fieldView (usage : Usage) (record : Record) (f : Field) (offset : Nat)
    (access : String) :
    Agrees (d.fieldView bytes usage nested record f (base + offset) access)
      (d.fieldView bytes' usage nested' record f (base' + offset) access) := by
  have hle := h.le
  unfold Decoder.fieldView
  cases hplace : Word.add? (base + offset) f.offset with
  | none => exact agrees_fail _ _
  | some place =>
    -- no overflow behind the later place, and so none behind the earlier one
    obtain ⟨hword, rfl⟩ := Word.add?_eq_some_iff.1 hplace
    have hplace' : Word.add? (base' + offset) f.offset = some (base' + offset + f.offset) :=
      Word.add?_eq_some_iff.2 ⟨by omega, rfl⟩
    rw [hplace', Nat.add_assoc, Nat.add_assoc]
    dsimp only
    cases d.registry.kindOf f.type <;> dsimp only
    case primitive =>
      split
      · exact agrees_fail _ _
      · split
        · exact h.bitFieldView f _ _
        · exact h.primitiveView f.type _
    case struct => exact hnested f.type _ _
    case union => exact hnested f.type _ _
    case enumeration => exact h.enumerationView f.type _
    case array => exact h.arrayFieldView hnested usage f.type _ _
    case objectPointer => exact h.pointerView f.type _ _
    case functionPointer => exact Agrees.of_eq rfl
    case unknown => exact agrees_fail _ _

theorem Covers.unionMemberView (usage : Usage) (record : Record) (f : Field) (offset : Nat)
    (access : String) :
    Agrees (d.unionMemberView bytes usage nested record f (base + offset) access)
      (d.unionMemberView bytes' usage nested' record f (base' + offset) access) := by
  unfold Decoder.unionMemberView
  -- a pointer is left null in both
  split
  · exact Agrees.of_eq rfl
  · exact h.fieldView hnested usage record f offset access

/-! ### Records -/

omit hnested

/-- **Records** are decoded from the place that covers them with as many levels of nesting or
more. -/
theorem Covers.recordView (usage : Usage) {levels levels' : Nat} (hlevels : levels ≤ levels') :
    NestedCovers base base' (d.recordView bytes usage levels)
      (d.recordView bytes' usage levels') := by
  induction levels generalizing levels' with
  -- no levels are left, and the one decoder fails
  | zero => exact fun _ _ _ => agrees_fail _ _
  | succ levels ih =>
    obtain ⟨levels', rfl⟩ : ∃ n, levels' = n + 1 := ⟨levels' - 1, by omega⟩
    -- the records nested in this one are decoded with a level less
    have hnested := @ih levels' (by omega)
    intro t offset access
    refine (Agrees.of_eq rfl).bind fun record _ => ?_
    split
    · refine (agrees_membersView fun f _ =>
        h.fieldView hnested usage record f offset access).bind fun fields _ => ?_
      split
      · exact (h.arrayView hnested _ _ _ _).bind fun _ _ => Agrees.of_eq rfl
      · exact Agrees.of_eq rfl
    · refine (h.arrayView hnested _ _ _ _).bind fun raw _ => ?_
      exact (agrees_membersView fun f _ =>
        h.unionMemberView hnested usage record f offset access).bind fun _ _ => Agrees.of_eq rfl

end Covers

/-- The literal of a record that is rebuilt lists its bytes, all of which are in the buffer. -/
theorem literal_of_isRebuilt {usage : Usage} {levels offset : Nat} {t : CType} {access : String}
    {record : Record} (hof : d.registry.recordOf t = .ok record)
    (hrebuilt : record.isRebuilt = true) {view : View}
    (hview : (d.recordView bytes usage (levels + 1) t offset access).outcome = .ok view) :
    (bytes.window offset record.size).length = record.size ∧
      view.literal = Literal.fromBytes (identifier record.name)
        (Literal.signedBytes (bytes.window offset record.size)) := by
  obtain ⟨-, hraw⟩ := exists_of_recordView hof hview
  obtain ⟨raw, hraw, hliteral⟩ := hraw hrebuilt
  obtain ⟨hlength, hbytes⟩ := literal_rawBytesView hraw
  exact ⟨hlength, by rw [hliteral, hbytes]⟩

/-- What is decoded from a place on is decoded from the bytes behind that place, with as many levels
of nesting or more. -/
theorem recordView_drop {usage : Usage} {levels levels' offset : Nat} (hlevels : levels ≤ levels')
    {t : CType} {access : String} {view : View}
    (hview : (d.recordView bytes usage levels t offset access).outcome = .ok view) :
    (d.recordView (bytes.drop offset) usage levels' t 0 access).outcome = .ok view := by
  have hcovers := (covers_drop bytes offset).recordView (d := d) usage hlevels t 0 access
  rw [hcovers view hview]
  exact hview

/-- **One place, one view.** What is cut out of a buffer from the place of a record on yields the
view of the record if it yields any, whatever the levels of nesting, the usage and the path are. -/
theorem eq_of_recordView_window {usage usage' : Usage} {levels levels' offset length : Nat}
    {t : CType} {access access' : String} {view view' : View}
    (hview : (d.recordView bytes usage levels t offset access).outcome = .ok view)
    (hview' : (d.recordView (bytes.window offset length) usage' levels' t 0 access').outcome =
      .ok view') : view' = view := by
  have hwhole := recordView_drop (Nat.le_max_left levels levels') hview
  -- the bytes behind the place also cover what is cut out of them
  have hcovers := (covers_window bytes offset length).recordView (d := d) usage'
    (Nat.le_max_right levels levels') t 0 access'
  have hpart : (d.recordView (bytes.drop offset) usage' (max levels levels') t 0
      access').outcome = .ok view' := by
    rw [← hview']
    exact congrArg Traced.outcome (hcovers view' hview')
  -- the path is no part of what is decoded, and neither is the usage of a record
  have hsame : (d.recordView (bytes.drop offset) usage (max levels levels') t 0 access).outcome =
      (d.recordView (bytes.drop offset) usage (max levels levels') t 0 access').outcome :=
    outcome_recordView_congr ⟨rfl, rfl, fun _ => rfl⟩ usage (max levels levels') t 0 access access'
  rw [recordView_usage usage' usage, ← hsame, hwhole] at hpart
  exact (Except.ok.inj hpart).symm

/-- The bytes of a record of well-formed layout, cut out of a buffer that holds all of them, yield
the same view. -/
theorem recordView_window {usage : Usage} {levels offset : Nat} {t : CType} {access : String}
    {record : Record} (hrecord : d.registry.IsRecord t) (hof : d.registry.recordOf t = .ok record)
    (hwell : d.registry.WellFormed t)
    (hlength : (bytes.window offset record.size).length = record.size) {view : View}
    (hview : (d.recordView bytes usage levels t offset access).outcome = .ok view) :
    (d.recordView (bytes.window offset record.size) usage levels t 0 access).outcome =
      .ok view := by
  -- a record without bytes could lie behind the end of the buffer
  have hpos : 0 < record.size :=
    hwell.size_pos (Registry.Part.self_of_isRecord hrecord) hrecord hof
  have hwindow : offset + record.size ≤ bytes.length := by
    rw [Bytes.window, List.length_take, List.length_drop] at hlength
    omega
  -- the record fills the window
  have hin : ∀ size, d.registry.sizeOf t = .ok size → 0 + size ≤ record.size := by
    intro size hsize
    obtain rfl := Except.ok.inj ((hrecord.sizeOf_eq hof).symm.trans hsize)
    exact Nat.le_of_eq (Nat.zero_add _)
  have hagrees := agrees_recordView hwindow usage (Nat.le_refl levels) t 0 access hrecord hwell hin
  rw [hagrees view hview]
  exact hview

/-- **Values rebuilt from their bytes.** Wherever a union, or a structure with an anonymous member,
is decoded, its literal lists its bytes in the buffer as numbers with a sign, one for each byte of
its size. So two values of the type have the same literal exactly if their bytes are the same. The
parts of the view are the members, read from the place of the record in the buffer. The bytes from
there on yield the same view, so nothing before them matters. What is cut out of them yields the
same view, too, if it can be decoded on its own, and the bytes of a record of well-formed layout
can. -/
theorem rebuilt_from_bytes {t : CType} (hrecord : d.registry.IsRecord t) {record : Record}
    (hof : d.registry.recordOf t = .ok record) (hrebuilt : record.isRebuilt = true) {usage : Usage}
    {levels offset : Nat} {access : String} {view : View}
    (hview : (d.recordView bytes usage (levels + 1) t offset access).outcome = .ok view) :
    ((bytes.window offset record.size).length = record.size ∧
      view.literal = Literal.fromBytes (identifier record.name)
        (Literal.signedBytes (bytes.window offset record.size))) ∧
    (∀ (d' : Decoder) (bytes' : Bytes) (usage' : Usage) (levels' offset' : Nat)
      (access' : String) (view' : View), d'.registry = d.registry →
      (d'.recordView bytes' usage' levels' t offset' access').outcome = .ok view' →
        (view.literal = view'.literal ↔
          bytes.window offset record.size = bytes'.window offset' record.size)) ∧
    List.Forall₂ (fun f child => (d.recordMemberView bytes usage (d.recordView bytes usage levels)
      record f offset access).outcome = .ok child) record.fields view.children ∧
    (d.recordView (bytes.drop offset) usage (levels + 1) t 0 access).outcome = .ok view ∧
    (∀ (length : Nat) (usage' : Usage) (levels' : Nat) (access' : String) (view' : View),
      (d.recordView (bytes.window offset length) usage' levels' t 0 access').outcome = .ok view' →
        view' = view) ∧
    (d.registry.WellFormed t →
      (d.recordView (bytes.window offset record.size) usage (levels + 1) t 0 access).outcome =
        .ok view) := by
  obtain ⟨hlength, hliteral⟩ := literal_of_isRebuilt hof hrebuilt hview
  obtain ⟨hchildren, -⟩ := exists_of_recordView hof hview
  refine ⟨⟨hlength, hliteral⟩, ?_, hchildren, recordView_drop (Nat.le_refl _) hview,
    fun length usage' levels' access' view' hview' => eq_of_recordView_window hview hview',
    fun hwell => recordView_window hrecord hof hwell hlength hview⟩
  intro d' bytes' usage' levels' offset' access' view' hsame hview'
  cases levels' with
  | zero => exact absurd hview' (outcome_fail_ne_ok _ _)
  | succ levels' =>
    -- the other decoder knows the same layouts
    have hof' : d'.registry.recordOf t = .ok record := by rw [hsame, hof]
    obtain ⟨-, hliteral'⟩ := literal_of_isRebuilt hof' hrebuilt hview'
    rw [hliteral, hliteral', Literal.fromBytes_inj]
    exact ⟨Literal.signedBytes_injective, congrArg Literal.signedBytes⟩

/-- A number of two bytes, or its low byte alone. -/
def halvesRecord : Record where
  name := "halves"
  kind := .union
  size := 2
  fields := [⟨"both", .simple "uint16_t", 0, none, 0⟩, ⟨"low", .simple "uint8_t", 0, none, 0⟩]

/-- A tag that is followed by an anonymous number. -/
def packetRecord : Record where
  name := "packet"
  kind := .struct
  size := 3
  fields := [⟨"tag", .simple "uint8_t", 0, none, 0⟩, ⟨"", .simple "halves", 1, none, 0⟩]
  hasAnonymousMember := true

/-- A decoder that knows both. -/
def packetDecoder : Decoder where
  registry := .ofLists [halvesRecord, packetRecord] [] 8
  method := "send"

/-- A packet that starts at the second byte, whose tag is a byte with the highest bit set. -/
def packetBytes : Bytes := [1, 0x80, 0xFE, 0x7F, 9]

/-- The structure and the union within it are written as their bytes, and the members of the union
are still read as numbers without a sign. -/
theorem packet_rebuilt :
    ∃ packet halves,
      (packetDecoder.recordView packetBytes .parameter 32 (.simple "packet") 1 "p").outcome =
        .ok packet ∧
      packet.literal = "from_bytes<packet>(\x7b-128, -2, 127\x7d)" ∧
      (packetDecoder.recordView packetBytes .parameter 31 (.simple "halves") 2 "p").outcome =
        .ok halves ∧
      halves.literal = "from_bytes<halves>(\x7b-2, 127\x7d)" ∧
      halves.children.map View.literal = ["32766", "254"] := by
  obtain ⟨packet, hpacket⟩ : ∃ view, (packetDecoder.recordView packetBytes .parameter 32
      (.simple "packet") 1 "p").outcome = .ok view := ⟨_, rfl⟩
  obtain ⟨halves, hhalves⟩ : ∃ view, (packetDecoder.recordView packetBytes .parameter 31
      (.simple "halves") 2 "p").outcome = .ok view := ⟨_, rfl⟩
  have hstruct : packetDecoder.registry.recordOf (.simple "packet") = .ok packetRecord := rfl
  have hunion : packetDecoder.registry.recordOf (.simple "halves") = .ok halvesRecord := rfl
  obtain ⟨⟨-, hliteral⟩, -⟩ := rebuilt_from_bytes (.inl rfl) hstruct rfl hpacket
  obtain ⟨⟨-, hliteral'⟩, -, hmembers, -⟩ := rebuilt_from_bytes (.inr rfl) hunion rfl hhalves
  -- the members of the union are its only parts
  obtain ⟨both, rest, hboth, hrest, hchildren⟩ := List.forall₂_cons_left_iff.1 hmembers
  obtain ⟨low, none, hlow, hnone, rfl⟩ := List.forall₂_cons_left_iff.1 hrest
  cases hnone
  refine ⟨packet, halves, hpacket, ?_, hhalves, ?_, ?_⟩
  · rw [hliteral]
    decide
  · rw [hliteral']
    decide
  · rw [hchildren, ← Except.ok.inj hboth, ← Except.ok.inj hlow]
    decide

end Decoder

end SymVec

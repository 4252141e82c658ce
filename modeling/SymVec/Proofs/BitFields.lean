import SymVec.Proofs.Progress
import SymVec.Proofs.RawBytes

/-!
# Bit fields

A buffer is a string of bits, the low bit of each byte first. A bit field is a run of it: it starts
a number of bits after the byte where its member starts, and its bits are a number in binary or in
two's complement. The decoder finds the same number by shifting and masking a word of the bytes that
the bits touch.

* `BitString.natural_drop`, `BitString.natural_take` — shifting drops bits and masking takes them;
* `Decoder.bitsOf_natural` — the shifted and masked word as a run of bits;
* `Decoder.bit_field_exact` — what a bit field of an integer type is decoded to, and when;
* `Decoder.declared_bits_decide` — which bits decide the value of a member with a declared width;
* `Decoder.exists_unmasked_enumeration` — an enumeration that shows the bits of its neighbour.
-/

namespace SymVec

/-- Bits, the lowest first. -/
abbrev BitString := List Bool

namespace BitString

/-- **Binary number.** -/
def natural : BitString → Nat
  | [] => 0
  | bit :: rest => bit.toNat + 2 * natural rest

/-- **Integer.** In two's complement if it has a sign: then the number is negative if the highest
bit is set. -/
def integer (signed : Bool) (bits : BitString) : Int :=
  if signed ∧ bits.getLast? = some true then bits.natural - (1 <<< bits.length : Nat)
  else bits.natural

variable {bits : BitString}

/-- Bits behind others count as many places higher. -/
theorem natural_append (low high : BitString) :
    natural (low ++ high) = low.natural + high.natural <<< low.length := by
  induction low with
  | nil => simp [natural]
  | cons bit rest ih =>
    rw [List.cons_append, natural, natural, ih, List.length_cons, Nat.shiftLeft_succ]
    omega

/-- The number of some bits is below the power of two with as many. -/
theorem natural_lt (bits : BitString) : bits.natural < 1 <<< bits.length := by
  induction bits with
  | nil => decide
  | cons bit rest ih =>
    have hbit : bit.toNat < 2 := bit.toNat_lt
    rw [natural, List.length_cons, Nat.shiftLeft_succ]
    omega

/-- **Shifting** drops the lowest bits. -/
theorem natural_drop (bits : BitString) (k : Nat) :
    natural (bits.drop k) = bits.natural >>> k := by
  induction k generalizing bits with
  | zero => rfl
  | succ k ih =>
    cases bits with
    | nil => exact (Nat.zero_shiftRight _).symm
    | cons bit rest =>
      have hbit : bit.toNat < 2 := bit.toNat_lt
      -- shifting by one place drops the lowest bit
      have hhalf : (bit.toNat + 2 * natural rest) / 2 = natural rest := by omega
      rw [List.drop_succ_cons, ih, natural, Nat.shiftRight_succ_inside, hhalf]

/-- **Masking** takes the lowest bits. -/
theorem natural_take (bits : BitString) (k : Nat) :
    natural (bits.take k) = bits.natural % 1 <<< k := by
  induction k generalizing bits with
  | zero => exact (Nat.mod_one _).symm
  | succ k ih =>
    cases bits with
    | nil => exact (Nat.zero_mod _).symm
    | cons bit rest =>
      have hbit : bit.toNat < 2 := bit.toNat_lt
      -- the lowest bit is the remainder by two, and the others are masked one place shorter
      have hlow : (bit.toNat + 2 * natural rest) % 2 = bit.toNat := by omega
      have hhalf : (bit.toNat + 2 * natural rest) / 2 = natural rest := by omega
      rw [List.take_succ_cons, natural, natural, ih, Nat.shiftLeft_succ, Nat.mod_mul, hlow, hhalf]

/-- The highest bit is set exactly in the upper half of the numbers. -/
theorem getLast?_eq_true_iff (hne : 0 < bits.length) :
    bits.getLast? = some true ↔ 1 <<< bits.length ≤ 2 * natural bits := by
  rcases List.eq_nil_or_concat' bits with rfl | ⟨low, bit, rfl⟩
  · cases hne
  · -- the highest bit alone counts as much as all numbers of the lower ones
    have hlow := natural_lt low
    have hvalue : natural (low ++ [bit]) = natural low + bit.toNat <<< low.length :=
      natural_append low [bit]
    rw [List.getLast?_concat, Option.some.injEq, hvalue, List.length_append, List.length_singleton,
      Nat.shiftLeft_succ]
    cases bit with
    | true =>
      refine iff_of_true rfl ?_
      rw [Bool.toNat_true]
      omega
    | false =>
      refine iff_of_false Bool.false_ne_true ?_
      rw [Bool.toNat_false, Nat.zero_shiftLeft]
      omega

/-- The signed reading of a word that holds the bits is the integer in two's complement. -/
theorem toSigned_natural (hne : 0 < bits.length) (hlength : bits.length ≤ 64) :
    Word.toSigned (natural bits) bits.length = integer true bits := by
  rw [Word.toSigned_of_lt hne hlength (natural_lt bits), integer]
  simp only [getLast?_eq_true_iff hne, true_and]

end BitString

namespace Bytes

variable {bytes run run' : Bytes}

/-- **Bits** of a buffer, the low bit of each byte first. -/
def bits : Bytes → BitString
  | [] => []
  | b :: rest => (List.range 8).map b.toNat.testBit ++ bits rest

/-- A buffer has eight bits for each byte. -/
@[simp] theorem length_bits (bytes : Bytes) : bytes.bits.length = 8 * bytes.length := by
  induction bytes with
  | nil => rfl
  | cons b rest ih =>
    rw [bits, List.length_append, List.length_map, List.length_range, ih, List.length_cons]
    omega

/-- The number of the bits is the number that is stored low byte first. -/
theorem natural_bits (bytes : Bytes) : BitString.natural bytes.bits = bytes.value := by
  -- for a single byte this is checked for all its values
  have hbyte : ∀ n < 256, BitString.natural ((List.range 8).map n.testBit) = n := by
    decide +kernel
  induction bytes with
  | nil => rfl
  | cons b rest ih =>
    rw [bits, BitString.natural_append, hbyte b.toNat b.toNat_lt, ih, List.length_map,
      List.length_range, Nat.shiftLeft_eq, value_cons, Nat.mul_comm]

/-- The bits of the first bytes are the first bits. -/
theorem bits_take (bytes : Bytes) (n : Nat) : bits (bytes.take n) = bytes.bits.take (8 * n) := by
  induction n generalizing bytes with
  | zero => rfl
  | succ n ih =>
    cases bytes with
    | nil => exact List.take_nil.symm
    | cons b rest =>
      have hbyte : ((List.range 8).map b.toNat.testBit).length = 8 := by simp
      have hfirst : ((List.range 8).map b.toNat.testBit).length ≤ 8 * (n + 1) := by omega
      rw [List.take_succ_cons, bits, bits, ih, List.take_append, List.take_of_length_le hfirst,
        hbyte, Nat.mul_succ, Nat.add_sub_cancel]

/-- Runs of the same length are told by their bits. -/
theorem eq_of_bits_eq (h : run.bits = run'.bits) : run = run' := by
  have hlength := congrArg List.length h
  rw [length_bits, length_bits] at hlength
  apply eq_of_value_eq (by omega)
  rw [← natural_bits, ← natural_bits, h]

/-- **Bits of a member** that starts at byte `place`: `width` of them, from the bit `first` on. -/
def bitsAt (bytes : Bytes) (place first width : Nat) : BitString :=
  ((bits (bytes.drop place)).drop first).take width

/-- Within the buffer a member has all of its bits. -/
theorem length_bitsAt {place first width : Nat}
    (h : 8 * place + first + width ≤ 8 * bytes.length) :
    (bytes.bitsAt place first width).length = width := by
  rw [bitsAt, List.length_take, List.length_drop, length_bits, List.length_drop]
  omega

/-- The bits of a window are bits of the buffer. -/
theorem bits_window (place n : Nat) : (bytes.window place n).bits = bytes.bitsAt place 0 (8 * n) :=
  bits_take _ _

/-- A run of bits within a run is a run of the buffer, or begins one. -/
theorem take_drop_bitsAt (place n first width : Nat) :
    ((bytes.bitsAt place 0 n).drop first).take width =
      (bytes.bitsAt place first width).take (n - first) := by
  rw [bitsAt, bitsAt, List.drop_zero, List.drop_take, List.take_take, List.take_take, Nat.min_comm]

end Bytes

namespace Decoder

open Traced

variable {d : Decoder} {bytes bytes' : Bytes}

/-! ### Bits of a word -/

/-- **Shift and mask.** From the word of a string of bits they take a run of it. -/
theorem bitsOf_natural {bits : BitString} (hlength : bits.length ≤ 64) (first width : Nat) :
    bitsOf (BitString.natural bits) first width =
      BitString.natural ((bits.drop first).take width) := by
  rw [bitsOf, BitString.natural_take, BitString.natural_drop]
  split
  · next hwide =>
    -- a word has no more bits than that
    have hlt : BitString.natural bits < 1 <<< width :=
      Nat.lt_of_lt_of_le (BitString.natural_lt bits) (Bytes.one_shiftLeft_le (by omega))
    have hle : BitString.natural bits >>> first ≤ BitString.natural bits := Nat.shiftRight_le _ _
    exact (Nat.mod_eq_of_lt (by omega)).symm
  · rfl

/-- The bits that are taken from a run of a buffer. Those behind the end of the run, and those
behind the end of a word, are lost. -/
theorem bitsOf_word (place n first width : Nat) :
    bitsOf (Bytes.word (bytes.window place n)) first width =
      BitString.natural ((bytes.bitsAt place first width).take (min 64 (8 * n) - first)) := by
  -- a word takes no more than eight bytes of the run
  have hword : Bytes.word (bytes.window place n) =
      BitString.natural (bytes.bitsAt place 0 (min 64 (8 * n))) := by
    rw [Bytes.word, ← Bytes.natural_bits, Bytes.bits_take, Bytes.bits_window, Bytes.bitsAt,
      List.take_take]
    rfl
  have hlength : (bytes.bitsAt place 0 (min 64 (8 * n))).length ≤ 64 := by
    have hle := List.length_take_le (min 64 (8 * n)) ((Bytes.bits (bytes.drop place)).drop 0)
    exact Nat.le_trans hle (Nat.min_le_left _ _)
  rw [hword, bitsOf_natural hlength, Bytes.take_drop_bitsAt]

/-! ### Fields of an integer type -/

section Integer

variable {f : Field} {p : Primitive} {width : Nat}

/-- A bit field that fills its type is read like a value of the type. -/
theorem bitFieldView_eq_primitiveView (hp : f.type.primitive? = some p)
    (hwhole : f.bitSize = some (8 * p.size)) (hfirst : f.bitOffset = 0) (bytes : Bytes)
    (place : Nat) : bitFieldView bytes f p place = primitiveView bytes f.type place := by
  obtain ⟨-, hle⟩ := Primitive.size_bounds (CType.find?_of_primitive? hp)
  have hbytes : (Word.addSaturating 0 (8 * p.size) + 7) / 8 = p.size := by
    rw [Word.addSaturating_of_lt (by omega)]
    omega
  unfold bitFieldView primitiveView
  rw [hp, hwhole, Option.getD_some, hfirst]
  dsimp only
  rw [hbytes]
  by_cases hin : place + p.size ≤ bytes.length
  · have hlength : (bytes.window place p.size).length = p.size := Bytes.length_window hin
    have hword : Bytes.word (bytes.window place p.size) =
        BitString.natural (Bytes.bits (bytes.window place p.size)) := by
      rw [Bytes.natural_bits, Bytes.word_eq_value (by omega)]
    -- all bits of the run are taken
    have hall : bitsOf (Bytes.word (bytes.window place p.size)) 0 (8 * p.size) =
        Bytes.word (bytes.window place p.size) := by
      rw [hword, bitsOf_natural (by rw [Bytes.length_bits]; omega), List.drop_zero,
        List.take_of_length_le (by rw [Bytes.length_bits]; omega)]
    rw [readBytes_of_within hin, pure_bind, pure_bind, hall]
  · -- the same bytes are missing for both
    rw [readBytes_of_beyond hin]
    rfl

/-- A member that is an integer of a declared width is read as a bit field. -/
theorem fieldView_eq_bitFieldView (hlevels : f.type.levels = [])
    (hp : f.type.primitive? = some p) (hwidth : f.bitSize = some width)
    (hle : width ≤ 8 * p.size) (usage : Usage) (nested : Nested) (record : Record) (base : Nat)
    (access : String) :
    d.fieldView bytes usage nested record f base access =
      match Word.add? base f.offset with
      | none => .fail (.outOfBounds base f.offset bytes.length)
      | some place => bitFieldView bytes f p place := by
  unfold fieldView
  rw [Registry.kindOf_of_primitive? d.registry hlevels hp, hp]
  cases Word.add? base f.offset with
  | none => rfl
  | some place =>
    dsimp only
    split
    · rfl
    · -- a member that fills its type is not read as a bit field, but to the same effect
      next hwhole =>
      have hfind : Primitive.find? f.type.baseName = some p := CType.find?_of_primitive? hp
      obtain ⟨hfull, hfirst⟩ := f.whole_of_not_isBitField hfind hwidth hwhole
      obtain rfl : width = 8 * p.size := Nat.le_antisymm hle hfull
      exact (bitFieldView_eq_primitiveView hp hwidth hfirst bytes place).symm

/-- The bits of an integer in a buffer that holds all bytes that they touch. -/
theorem bitFieldView_of_within (hrole : p.role = .integer) (hwidth : f.bitSize = some width)
    (hpos : 0 < width) (hword : f.bitOffset + width ≤ 64) {place : Nat}
    (hin : place + (f.bitOffset + width + 7) / 8 ≤ bytes.length) :
    bitFieldView bytes f p place = pure (.primitive (Literal.signed
      ((bytes.bitsAt place f.bitOffset width).integer p.signed) f.type.baseName)) := by
  have hbits : (bytes.bitsAt place f.bitOffset width).length = width :=
    Bytes.length_bitsAt (by omega)
  -- no bit is behind the end of the run
  have hvalue : bitsOf (Bytes.word (bytes.window place ((f.bitOffset + width + 7) / 8)))
      f.bitOffset width = BitString.natural (bytes.bitsAt place f.bitOffset width) := by
    rw [bitsOf_word, List.take_of_length_le (by omega)]
  have hsigned := @BitString.toSigned_natural (bytes.bitsAt place f.bitOffset width) (by omega)
    (by omega)
  rw [hbits] at hsigned
  unfold bitFieldView
  rw [hwidth, Option.getD_some]
  dsimp only
  rw [Word.addSaturating_of_lt (by omega), readBytes_of_within hin, pure_bind, hvalue,
    Literal.scalar, hrole]
  dsimp only
  cases p.signed with
  | true => rw [if_pos rfl, hsigned]
  | false =>
    rw [if_neg Bool.false_ne_true, Literal.unsigned_eq_signed, BitString.integer]
    simp

/-- **Bit fields are exact.** A member of an integer type with a declared width that fits into the
type, whose bits end within a word, can be read exactly if the buffer holds all bytes that its bits
touch; otherwise the read is out of bounds. Its literal is then that of the integer whose binary
digits are these bits, with the highest one as its sign if the type has one. A bit field that fills
its type touches the bytes of the type, and is read like a plain value of it. -/
theorem bit_field_exact (d : Decoder) (hlevels : f.type.levels = [])
    (hp : f.type.primitive? = some p) (hrole : p.role = .integer)
    (hwidth : f.bitSize = some width) (hpos : 0 < width) (hle : width ≤ 8 * p.size)
    (hword : f.bitOffset + width ≤ 64) :
    (∀ (bytes : Bytes) (usage : Usage) (nested : Nested) (record : Record) (base : Nat)
      (access : String), bytes.length < Word.limit →
        (base + f.offset + (f.bitOffset + width + 7) / 8 ≤ bytes.length →
          (bytes.bitsAt (base + f.offset) f.bitOffset width).length = width ∧
          (d.fieldView bytes usage nested record f base access).outcome =
            .ok (.primitive (Literal.signed
              ((bytes.bitsAt (base + f.offset) f.bitOffset width).integer p.signed)
              f.type.baseName))) ∧
        (¬base + f.offset + (f.bitOffset + width + 7) / 8 ≤ bytes.length →
          ∃ offset length, (d.fieldView bytes usage nested record f base access).outcome =
            .error (.outOfBounds offset length bytes.length))) ∧
    (width = 8 * p.size → f.bitOffset = 0 →
      (f.bitOffset + width + 7) / 8 = p.size ∧
      ∀ (bytes : Bytes) (place : Nat),
        bitFieldView bytes f p place = primitiveView bytes f.type place) := by
  refine ⟨fun bytes usage nested record base access hlength => ⟨fun hin => ?_, fun hbeyond => ?_⟩,
    fun hwhole hfirst => ⟨by omega, ?_⟩⟩
  · -- a place within the buffer is a word
    have hplace : Word.add? base f.offset = some (base + f.offset) :=
      Word.add?_eq_some_iff.2 ⟨by omega, rfl⟩
    refine ⟨Bytes.length_bitsAt (by omega), ?_⟩
    rw [fieldView_eq_bitFieldView hlevels hp hwidth hle, hplace]
    dsimp only
    rw [bitFieldView_of_within hrole hwidth hpos hword hin, outcome_pure]
  · rw [fieldView_eq_bitFieldView hlevels hp hwidth hle]
    cases hplace : Word.add? base f.offset with
    | none => exact ⟨_, _, rfl⟩
    | some place =>
      obtain ⟨-, rfl⟩ := Word.add?_eq_some_iff.1 hplace
      -- the read asks for all bytes that the bits touch
      refine ⟨base + f.offset, (f.bitOffset + width + 7) / 8, ?_⟩
      unfold bitFieldView
      rw [hwidth, Option.getD_some]
      dsimp only
      rw [Word.addSaturating_of_lt (by omega), readBytes_of_beyond hbeyond]
      rfl
  · subst hwhole
    exact bitFieldView_eq_primitiveView hp hwidth hfirst

/-- Three bits with a sign, of which the first is the last one of a byte. -/
def levelField : Field := ⟨"level", .simple "int", 1, some 3, 7⟩

/-- In a buffer in which the field can be read it is the integer of the bits one, zero and one. -/
theorem level_exact :
    (Predicate.bareDecoder.fieldView [0, 0, 0x80, 0x7E] .parameter
        (fun _ _ _ => .fail (.tooDeep 0)) packetRecord levelField 1 "m").outcome =
      .ok (.primitive "-3") ∧
    ∃ offset length,
      (Predicate.bareDecoder.fieldView [0, 0, 0x80] .parameter
        (fun _ _ _ => .fail (.tooDeep 0)) packetRecord levelField 1 "m").outcome =
      .error (.outOfBounds offset length 3) := by
  have hint : levelField.type.primitive? = some ⟨4, .integer, true⟩ := rfl
  obtain ⟨hfield, -⟩ := bit_field_exact Predicate.bareDecoder rfl hint rfl
    (show levelField.bitSize = some 3 from rfl) (by decide) (by decide) (by decide)
  obtain ⟨hwithin, -⟩ := hfield [0, 0, 0x80, 0x7E] .parameter (fun _ _ _ => .fail (.tooDeep 0))
    packetRecord 1 "m" (by decide)
  obtain ⟨-, hbeyond⟩ := hfield [0, 0, 0x80] .parameter (fun _ _ _ => .fail (.tooDeep 0))
    packetRecord 1 "m" (by decide)
  refine ⟨?_, hbeyond (by decide)⟩
  rw [(hwithin (by decide)).2]
  have hliteral : Literal.signed ((Bytes.bitsAt [0, 0, 0x80, 0x7E] 2 7 3).integer true) "int" =
      "-3" := by
    decide
  exact congrArg (fun text => Except.ok (View.primitive text)) hliteral

end Integer

/-! ### Members that share bytes -/

section Shared

variable {f : Field} {width place place' : Nat}

/-- The bits that a bit field is declared with decide it, wherever it is read. -/
theorem coincides_bitFieldView_of_bits (p : Primitive) (hwidth : f.bitSize = some width)
    (hbits : bytes.bitsAt place f.bitOffset width = bytes'.bitsAt place' f.bitOffset width) :
    Coincides (bitFieldView bytes f p place) (bitFieldView bytes' f p place') := by
  intro view view' hview hview'
  unfold bitFieldView at hview hview'
  rw [hwidth] at hview hview'
  obtain ⟨run, hrun, hview⟩ := outcome_bind_eq_ok_iff.1 hview
  obtain ⟨run', hrun', hview'⟩ := outcome_bind_eq_ok_iff.1 hview'
  obtain ⟨-, rfl⟩ := outcome_readBytes_eq_ok_iff.1 hrun
  obtain ⟨-, rfl⟩ := outcome_readBytes_eq_ok_iff.1 hrun'
  -- both words are made of the declared bits, cut in the same way
  rw [Option.getD_some, bitsOf_word, hbits] at hview
  rw [Option.getD_some, bitsOf_word] at hview'
  exact Except.ok.inj (hview.symm.trans hview')

/-- Runs of bytes are read alike if they have the same bits. -/
theorem coincides_readBytes_of_bits {n : Nat}
    (hbits : bytes.bitsAt place 0 (8 * n) = bytes'.bitsAt place' 0 (8 * n)) :
    Coincides (readBytes bytes place n) (readBytes bytes' place' n) := by
  intro run run' hrun hrun'
  obtain ⟨-, rfl⟩ := outcome_readBytes_eq_ok_iff.1 hrun
  obtain ⟨-, rfl⟩ := outcome_readBytes_eq_ok_iff.1 hrun'
  apply Bytes.eq_of_bits_eq
  rw [Bytes.bits_window, Bytes.bits_window, hbits]

/-- **A primitive member** is decided by the bits that it is declared with, whether it is read as a
bit field or whole. -/
theorem coincides_primitiveMember {usage usage' : Usage} {nested nested' : Nested}
    {record record' : Record} {base base' : Nat} {access access' : String}
    (hkind : d.registry.kindOf f.type = .primitive) (hwidth : f.bitSize = some width)
    (hbits : bytes.bitsAt (base + f.offset) f.bitOffset width =
      bytes'.bitsAt (base' + f.offset) f.bitOffset width) :
    Coincides (d.fieldView bytes usage nested record f base access)
      (d.fieldView bytes' usage' nested' record' f base' access') := by
  obtain ⟨p, hp, -⟩ := Registry.primitive_of_kindOf hkind
  unfold fieldView
  cases hplace : Word.add? base f.offset with
  | none => exact coincides_fail_left _ _
  | some place =>
    cases hplace' : Word.add? base' f.offset with
    | none => exact coincides_fail_right _ _
    | some place' =>
      obtain ⟨-, rfl⟩ := Word.add?_eq_some_iff.1 hplace
      obtain ⟨-, rfl⟩ := Word.add?_eq_some_iff.1 hplace'
      rw [hkind, hp]
      dsimp only
      split
      · exact coincides_bitFieldView_of_bits p hwidth hbits
      · next hwhole =>
        -- no fewer bits are declared than the type has
        obtain ⟨hfull, hfirst⟩ :=
          f.whole_of_not_isBitField (CType.find?_of_primitive? hp) hwidth hwhole
        have hbytes : bytes.bitsAt (base + f.offset) 0 (8 * p.size) =
            bytes'.bitsAt (base' + f.offset) 0 (8 * p.size) := by
          have hshorter (buffer : Bytes) (place : Nat) : buffer.bitsAt place 0 (8 * p.size) =
              (buffer.bitsAt place f.bitOffset width).take (8 * p.size) := by
            rw [Bytes.bitsAt, Bytes.bitsAt, List.take_take, hfirst, Nat.min_eq_left (by omega)]
          rw [hshorter, hshorter, hbits]
        unfold primitiveView
        rw [hp]
        exact (coincides_readBytes_of_bits hbytes).bind fun _ => coincides_of_outcome_eq rfl

/-- **A member that is an enumeration** is decided by all bits of the enumeration, with whatever
width it is declared. -/
theorem coincides_enumerationMember {usage usage' : Usage} {nested nested' : Nested}
    {record record' : Record} {base base' : Nat} {access access' : String} {e : Enumeration}
    (hkind : d.registry.kindOf f.type = .enumeration)
    (he : d.registry.enumerationOf f.type = .ok e)
    (hbits : bytes.bitsAt (base + f.offset) 0 (8 * e.size) =
      bytes'.bitsAt (base' + f.offset) 0 (8 * e.size)) :
    Coincides (d.fieldView bytes usage nested record f base access)
      (d.fieldView bytes' usage' nested' record' f base' access') := by
  unfold fieldView
  cases hplace : Word.add? base f.offset with
  | none => exact coincides_fail_left _ _
  | some place =>
    cases hplace' : Word.add? base' f.offset with
    | none => exact coincides_fail_right _ _
    | some place' =>
      obtain ⟨-, rfl⟩ := Word.add?_eq_some_iff.1 hplace
      obtain ⟨-, rfl⟩ := Word.add?_eq_some_iff.1 hplace'
      rw [hkind]
      dsimp only
      unfold enumerationView
      rw [ofLayout_bind_of_ok he, ofLayout_bind_of_ok he]
      -- the enumeration is the same, so equal bytes have equal values
      exact (coincides_readBytes_of_bits hbits).bind fun _ => coincides_of_outcome_eq rfl

end Shared

/-- A member of a record that is no pointer is read alike in structures and unions. -/
theorem recordMemberView_eq_fieldView {f : Field}
    (hkind : d.registry.kindOf f.type ≠ .objectPointer) (usage : Usage) (nested : Nested)
    (record : Record) (offset : Nat) (access : String) :
    d.recordMemberView bytes usage nested record f offset access =
      d.fieldView bytes usage nested record f offset access := by
  unfold recordMemberView unionMemberView
  split
  · rfl
  · split
    · next hpointer => exact absurd hpointer hkind
    · rfl

/-- **The bits that decide a member.** Two records of the same type, in whatever buffers and
wherever in them, have the same view of a member that is declared with a width, if they agree on the
declared bits and the member is primitive, and if they agree on all bits of the enumeration and the
member is one. What the other members hold does not matter. -/
theorem declared_bits_decide {t : CType} {record : Record}
    (hof : d.registry.recordOf t = .ok record) {i : Nat} {f : Field}
    (hf : record.fields[i]? = some f) {width : Nat} (hwidth : f.bitSize = some width)
    {usage usage' : Usage} {levels levels' offset offset' : Nat} {access access' : String}
    {view view' : View}
    (hview : (d.recordView bytes usage (levels + 1) t offset access).outcome = .ok view)
    (hview' : (d.recordView bytes' usage' (levels' + 1) t offset' access').outcome = .ok view') :
    (d.registry.kindOf f.type = .primitive →
      bytes.bitsAt (offset + f.offset) f.bitOffset width =
        bytes'.bitsAt (offset' + f.offset) f.bitOffset width →
      ∃ child, view.children[i]? = some child ∧ view'.children[i]? = some child) ∧
    (∀ e, d.registry.kindOf f.type = .enumeration → d.registry.enumerationOf f.type = .ok e →
      bytes.bitsAt (offset + f.offset) 0 (8 * e.size) =
        bytes'.bitsAt (offset' + f.offset) 0 (8 * e.size) →
      ∃ child, view.children[i]? = some child ∧ view'.children[i]? = some child) := by
  obtain ⟨hchildren, -⟩ := exists_of_recordView hof hview
  obtain ⟨hchildren', -⟩ := exists_of_recordView hof hview'
  obtain ⟨hi, rfl⟩ := List.getElem?_eq_some_iff.1 hf
  have hlength := hchildren.length_eq
  have hlength' := hchildren'.length_eq
  -- the member is decoded at the same place of the record in both buffers
  have hchild := hchildren.get hi (by omega)
  have hchild' := hchildren'.get hi (by omega)
  rw [List.get_eq_getElem, List.get_eq_getElem] at hchild hchild'
  have hsame (h : view.children[i] = view'.children[i]) :
      ∃ child, view.children[i]? = some child ∧ view'.children[i]? = some child :=
    ⟨_, List.getElem?_eq_getElem _, by rw [h, List.getElem?_eq_getElem]⟩
  constructor
  · intro hkind hbits
    rw [recordMemberView_eq_fieldView (by rw [hkind]; decide)] at hchild hchild'
    exact hsame (coincides_primitiveMember hkind hwidth hbits _ _ hchild hchild')
  · intro e hkind he hbits
    rw [recordMemberView_eq_fieldView (by rw [hkind]; decide)] at hchild hchild'
    exact hsame (coincides_enumerationMember hkind he hbits _ _ hchild hchild')

/-- Three bits of a color and five bits of a number, in the same byte. -/
def tintRecord : Record where
  name := "tint"
  kind := .struct
  size := 4
  fields := [⟨"color", .simple "color", 0, some 3, 0⟩, ⟨"rest", .simple "uint8_t", 0, some 5, 3⟩]

/-- A decoder that knows tints. -/
def tintDecoder : Decoder where
  registry := .ofLists [tintRecord] [colorEnumeration] 8
  method := "draw"

/-- Two tints of different colors have the same number, since they agree on its bits. -/
theorem tint_bits_decide :
    ∃ red other child,
      (tintDecoder.decode [0x50, 0, 0, 0] (.simple "tint") .parameter "t").outcome = .ok red ∧
      (tintDecoder.decode [0x51, 0, 0, 0] (.simple "tint") .parameter "t").outcome = .ok other ∧
      red.literal ≠ other.literal ∧
      red.children[1]? = some child ∧ other.children[1]? = some child := by
  obtain ⟨red, hred⟩ : ∃ view, (tintDecoder.decode [0x50, 0, 0, 0] (.simple "tint") .parameter
      "t").outcome = .ok view := ⟨_, rfl⟩
  obtain ⟨other, hother⟩ : ∃ view, (tintDecoder.decode [0x51, 0, 0, 0] (.simple "tint") .parameter
      "t").outcome = .ok view := ⟨_, rfl⟩
  have htint : tintDecoder.registry.recordOf (.simple "tint") = .ok tintRecord := rfl
  have hrest : tintRecord.fields[1]? = some ⟨"rest", .simple "uint8_t", 0, some 5, 3⟩ := rfl
  obtain ⟨hprimitive, -⟩ := declared_bits_decide htint hrest rfl hred hother
  obtain ⟨child, hchild, hchild'⟩ := hprimitive rfl rfl
  refine ⟨red, other, child, hred, hother, ?_, hchild, hchild'⟩
  -- the colors differ, so the two values do
  cases hred
  cases hother
  decide

/-- **An enumeration that is not masked.** Two tints agree on the declared bits of their colors, but
these are decoded to different values, since an enumeration is read whole and so shows the bits of
the number next to it. -/
theorem exists_unmasked_enumeration :
    Bytes.bitsAt [1, 0, 0, 0] 0 0 3 = Bytes.bitsAt [9, 0, 0, 0] 0 0 3 ∧
      (tintDecoder.decode [1, 0, 0, 0] (.simple "tint") .parameter "t").outcome =
        .ok (.struct "tint" [("color", .enumerator "BLUE"), ("rest", .primitive "0")] true none) ∧
      (tintDecoder.decode [9, 0, 0, 0] (.simple "tint") .parameter "t").outcome =
        .ok (.struct "tint" [("color", .enumerator "(enum color)(9)"), ("rest", .primitive "1")]
          true none) :=
  ⟨rfl, rfl, rfl⟩

end Decoder

end SymVec

import SymVec.Proofs.ScalarRows
import SymVec.Proofs.Usages

/-!
# Rows of an enumeration

An enumeration has any size, also one that is no power of two or that is longer than a word. Its
values are stored low byte first in two's complement, and of a longer one the first eight bytes
count. Integers that fit are encoded in that many bytes; a row of encoded integers is decoded to
their names, and the names have these integers as their values.

The run of bytes of an element, the number in it and its sign all follow the size of the
enumeration, so the round trip goes through one lemma for each: the runs of a buffer that is made of
encodings are the encodings, the number of an encoding is the integer modulo the numbers of that
length, and the upper half of these stands for the negative integers.

* `Bytes.value_encode`, `Bytes.stored_encode` — an integer is encoded and read back;
* `Bytes.runs_flatMap` — the runs of a buffer that is made of encodings;
* `Enumeration.named_or_cast` — lookup of names and of values;
* `Decoder.enumeration_rows_read_back` — rows of an enumeration.
-/

namespace SymVec

/-! ### Encoded integers -/

namespace Bytes

/-- **Encoding** of an integer in `size` bytes, low byte first. A negative one is in two's
complement, since division rounds down. -/
def encode : (size : Nat) → Int → Bytes
  | 0, _ => []
  | size + 1, n => UInt8.ofNat (n % 256).toNat :: encode size (n / 256)

/-- **Stored integer** in two's complement, of which eight bytes count. -/
def stored (run : Bytes) : Int := integer true (run.take 8)

/-- **Integers that fit** into `size` bytes, and into eight if there are more. -/
structure Fits (size : Nat) (n : Int) : Prop where
  least_le : -((1 <<< (8 * min size 8 - 1) : Nat) : Int) ≤ n
  lt : n < ((1 <<< (8 * min size 8 - 1) : Nat) : Int)

instance (size : Nat) (n : Int) : Decidable (Fits size n) :=
  decidable_of_iff (-((1 <<< (8 * min size 8 - 1) : Nat) : Int) ≤ n ∧
      n < ((1 <<< (8 * min size 8 - 1) : Nat) : Int))
    ⟨fun h => ⟨h.1, h.2⟩, fun h => ⟨h.least_le, h.lt⟩⟩

@[simp] theorem length_encode (size : Nat) (n : Int) : (encode size n).length = size := by
  induction size generalizing n with
  | zero => rfl
  | succ size ih => rw [encode, List.length_cons, ih]

/-- The first bytes of an encoding are the shorter encoding of the same integer. -/
theorem take_encode (size k : Nat) (n : Int) : (encode size n).take k = encode (min k size) n := by
  induction size generalizing k n with
  | zero => rw [Nat.min_zero]; exact List.take_nil
  | succ size ih =>
    cases k with
    | zero => rw [Nat.zero_min]; rfl
    | succ k => rw [encode, List.take_succ_cons, ih, Nat.succ_min_succ, encode]

/-- A remainder is the lowest digit and the remainder of the quotient. -/
theorem emod_mul_eq (n : Int) {count : Nat} (hpos : 0 < count) :
    n % ((256 * count : Nat) : Int) = n % 256 + 256 * (n / 256 % count) := by
  have hlow := Int.emod_add_mul_ediv n 256
  have hhigh := Int.emod_add_mul_ediv (n / 256) count
  have hrest : 0 ≤ n / 256 % count := Int.emod_nonneg _ (by omega)
  have hrest' : n / 256 % count < count := Int.emod_lt_of_pos _ (by omega)
  calc n % ((256 * count : Nat) : Int)
      = (n % 256 + 256 * (n / 256 % count) + (256 * count : Nat) * (n / 256 / count)) %
          ((256 * count : Nat) : Int) := by
        rw [Int.natCast_mul, Int.mul_assoc]
        congr 1
        omega
    _ = (n % 256 + 256 * (n / 256 % count)) % ((256 * count : Nat) : Int) :=
        Int.add_mul_emod_self_left _ _ _
    _ = n % 256 + 256 * (n / 256 % count) := Int.emod_eq_of_lt (by omega) (by omega)

/-- What is stored is the integer modulo the numbers of that length. -/
theorem value_encode (size : Nat) (n : Int) :
    ((encode size n).value : Int) = n % ((1 <<< (8 * size) : Nat) : Int) := by
  induction size generalizing n with
  | zero => exact (Int.emod_one n).symm
  | succ size ih =>
    -- one more byte has `256` times as many numbers
    have hmoved : 1 <<< (8 * (size + 1)) = 256 * 1 <<< (8 * size) := by
      rw [Nat.mul_succ, Nat.shiftLeft_add, Nat.shiftLeft_eq _ 8, Nat.mul_comm]
    have hpos : 0 < 1 <<< (8 * size) := by
      rw [Nat.one_shiftLeft]
      exact Nat.two_pow_pos _
    have hbyte : ((UInt8.ofNat (n % 256).toNat).toNat : Int) = n % 256 := by
      rw [UInt8.toNat_ofNat_of_lt' (by change (n % 256).toNat < 256; omega)]
      omega
    rw [encode, value_cons, Int.natCast_add, Int.natCast_mul, hbyte, ih, hmoved, emod_mul_eq n hpos]
    rfl

/-- **An integer that fits is stored.** -/
theorem stored_encode {size : Nat} (hpos : 0 < size) {n : Int} (h : Fits size n) :
    stored (encode size n) = n := by
  have hvalue := value_encode (min 8 size) n
  have hleast := h.least_le
  have hlt := h.lt
  rw [Nat.min_comm] at hleast hlt
  -- half of the numbers of that length are negative
  have hdouble : 1 <<< (8 * min 8 size) = 2 * 1 <<< (8 * min 8 size - 1) := by
    rw [← Nat.shiftLeft_succ]
    congr 1
    omega
  rw [stored, take_encode, integer, length_encode]
  rw [hdouble] at hvalue ⊢
  generalize 1 <<< (8 * min 8 size - 1) = half at hvalue hleast hlt ⊢
  rcases Int.lt_or_le n 0 with hnegative | hnonnegative
  · -- a negative integer is stored in the upper half of the numbers
    have hmoved : n % ((2 * half : Nat) : Int) = n + (2 * half : Nat) := by
      rw [← Int.add_emod_right]
      exact Int.emod_eq_of_lt (by omega) (by omega)
    rw [hmoved] at hvalue
    rw [if_pos ⟨rfl, by omega⟩]
    omega
  · rw [Int.emod_eq_of_lt hnonnegative (by omega)] at hvalue
    rw [if_neg (fun hupper => by omega)]
    exact hvalue

/-- The run of a buffer that starts with one, and those of its rest. -/
theorem runs_append {first : Bytes} {size : Nat} (hpos : 0 < size) (hlength : first.length = size)
    (rest : Bytes) : runs (first ++ rest) size = first :: rest.runs size := by
  -- the first run adds one to the count of the rest
  have hcount : (first ++ rest).length / size = rest.length / size + 1 := by
    rw [List.length_append, hlength, Nat.add_comm, Nat.add_div_right _ hpos]
  have hfirst : window (first ++ rest) (0 * size) size = first := by
    rw [Nat.zero_mul, window, List.drop_zero, List.take_append_of_le_length (by omega),
      List.take_of_length_le (by omega)]
  rw [runs, hcount, List.range_succ_eq_map, List.map_cons, hfirst, List.map_map, runs]
  congr 1
  apply List.map_congr_left
  intro i _
  -- the windows of the rest are the later ones of the whole
  rw [Function.comp_apply, window, window, Nat.succ_mul, Nat.add_comm, ← List.drop_drop, ← hlength,
    List.drop_left]

/-- The runs of a buffer that is made of them. -/
theorem runs_flatMap {α : Type} {part : α → Bytes} {size : Nat} (hpos : 0 < size)
    (hlength : ∀ x, (part x).length = size) (xs : List α) :
    runs (xs.flatMap part) size = xs.map part := by
  induction xs with
  | nil => rw [List.flatMap_nil, runs, List.length_nil, Nat.zero_div]; rfl
  | cons x rest ih => rw [List.flatMap_cons, runs_append hpos (hlength x), ih, List.map_cons]

/-- The signed reading of a word of any width is the stored integer. -/
theorem toSigned_word_stored {run : Bytes} (hpos : 0 < run.length) :
    Word.toSigned (word run) (Word.mulSaturating run.length 8) = run.stored := by
  rcases Nat.le_total run.length 8 with hshort | hlong
  · rw [Word.mulSaturating_of_lt (by omega), Nat.mul_comm, toSigned_word hpos hshort, stored,
      List.take_of_length_le hshort]
  · -- a word is all that is read of a longer run
    have hwide : 64 ≤ Word.mulSaturating run.length 8 := by
      unfold Word.mulSaturating Word.greatest Word.limit
      omega
    have htake : (run.take 8).length = 8 := by rw [List.length_take]; omega
    have hword : word (run.take 8) = word run := by rw [word, word, List.take_take]; rfl
    have hsigned := @toSigned_word (run.take 8) (by omega) (by omega)
    rw [htake, hword] at hsigned
    -- all widths from that of a word on are read alike
    have hbmod (bits : Nat) (h : 64 ≤ bits) :
        Word.toSigned (word run) bits = Int.bmod (word run) Word.limit := if_pos (.inr h)
    rw [stored, ← hsigned, hbmod _ hwide, hbmod _ (Nat.le_refl 64)]

end Bytes

namespace Enumeration

/-- A name with the scope of the enumeration before it, if there is one and it is not empty. -/
def qualify (e : Enumeration) (name : String) : String :=
  match e.scope with
  | some scope => if scope.isEmpty then name else scope ++ "::" ++ name
  | none => name

/-- **The view of a value**: the qualified name of the first entry with this value, or a cast. -/
def viewOf (e : Enumeration) (value : Int) : View :=
  .enumerator ((e.qualifiedName? value).getD (Literal.enumerationCast (identifier e.name) value))

/-- **The warnings of a value**: one if no entry has it. -/
def warningsOf (e : Enumeration) (value : Int) : List Warning :=
  if (e.nameOf? value).isSome then [] else [.valueOutOfRange e.name value]

/-- **Named values.** With distinct names, a value is that of the first entry which has it, whose
name has that value again; and such a value is nothing to warn of. -/
theorem named_or_cast {e : Enumeration} (hdistinct : (e.entries.map (·.name)).Nodup) (value : Int) :
    (∃ entry, e.entries.find? (·.value = value) = some entry ∧
      e.viewOf value = .enumerator (e.qualify entry.name) ∧ e.warningsOf value = [] ∧
      e.valueOf? entry.name = some value) ∨
    (∀ entry ∈ e.entries, entry.value ≠ value) ∧
      e.viewOf value = .enumerator (Literal.enumerationCast (identifier e.name) value) ∧
      e.warningsOf value = [.valueOutOfRange e.name value] := by
  -- whether an entry has the value decides both the view and the warning
  cases hfind : e.entries.find? (·.value = value) with
  | some entry =>
    have hname : e.nameOf? value = some entry.name := by rw [nameOf?, hfind, Option.map_some]
    refine .inl ⟨entry, rfl, ?_, ?_, valueOf?_nameOf? hdistinct hname⟩
    · rw [viewOf, qualifiedName?, hname]
      rfl
    · rw [warningsOf, hname]
      rfl
  | none =>
    have hname : e.nameOf? value = none := by rw [nameOf?, hfind, Option.map_none]
    refine .inr ⟨fun entry hentry => ?_, ?_, ?_⟩
    · simpa using List.find?_eq_none.1 hfind entry hentry
    · rw [viewOf, qualifiedName?, hname]
      rfl
    · rw [warningsOf, hname]
      rfl

end Enumeration

namespace Decoder

open Traced

variable {d : Decoder} {bytes : Bytes} {t : CType} {e : Enumeration} {usage : Usage}

/-- One value in a buffer that holds it. -/
theorem enumerationView_of_within (he : d.registry.enumerationOf t = .ok e) (hpos : 0 < e.size)
    {place : Nat} (hin : place + e.size ≤ bytes.length) :
    d.enumerationView bytes t place =
      ⟨.ok (e.viewOf (bytes.window place e.size).stored), [],
        e.warningsOf (bytes.window place e.size).stored⟩ := by
  have hlength : (bytes.window place e.size).length = e.size := Bytes.length_window hin
  -- the number is read as wide as the run is long
  have hvalue := @Bytes.toSigned_word_stored (bytes.window place e.size) (by omega)
  rw [hlength] at hvalue
  unfold enumerationView
  rw [ofLayout_bind_of_ok he, readBytes_of_within hin, pure_bind]
  dsimp only
  rw [hvalue, Enumeration.viewOf, Enumeration.warningsOf, Enumeration.qualifiedName?]
  cases e.nameOf? (bytes.window place e.size).stored with
  | some name => rfl
  | none => rfl

/-- The elements of a row that count: all, unless their number is given. -/
def counted {α : Type} (usage : Usage) (elements : List α) : List α :=
  match usage.knownSize? with
  | some n => elements.take n
  | none => elements

/-- The elements that count are in the bytes that count. -/
theorem exists_countedLength {u : CType} {size : Nat} (hsize : d.registry.sizeOf u = .ok size)
    (hpos : 0 < size) (hword : bytes.length < Word.limit) :
    ∃ length ≤ bytes.length, d.countedLength u bytes.length usage = .ok length ∧
      counted usage (bytes.runs size) =
        (List.range (length / size)).map fun i => bytes.window (i * size) size := by
  have helement : d.elementSize u = .ok size := (elementSize_eq_sizeOf d u).trans hsize
  unfold countedLength counted
  cases usage.knownSize? with
  | none => exact ⟨bytes.length, Nat.le_refl _, rfl, rfl⟩
  | some n =>
    refine ⟨min bytes.length (Word.mulSaturating n size), Nat.min_le_left _ _, ?_, ?_⟩
    · dsimp only
      -- the count is cut to what the buffer holds
      rw [helement]
      rfl
    · dsimp only
      rw [count_of_known hword hpos, Bytes.runs, ← List.map_take, List.take_range]

/-- **A row of an enumeration.** Each whole element of the buffer that counts is decoded. -/
theorem decode_enumeration_row (hrow : d.IsRow t usage)
    (hkind : d.registry.kindOf t.pointee = .enumeration)
    (he : d.registry.enumerationOf t.pointee = .ok e) (hpos : 0 < e.size)
    (hword : bytes.length < Word.limit) (name : String) :
    d.decode bytes t usage name =
      ⟨.ok (.array (((counted usage (bytes.runs e.size)).map Bytes.stored).map e.viewOf)), [],
        ((counted usage (bytes.runs e.size)).map Bytes.stored).flatMap e.warningsOf⟩ := by
  obtain ⟨e', he', hsize⟩ := Registry.enumeration_of_kindOf hkind
  obtain rfl : e = e' := Except.ok.inj (he.symm.trans he')
  obtain ⟨length, hle, hcounted, hruns⟩ := exists_countedLength hsize hpos hword
  have helements : isElementKind (d.registry.kindOf t.pointee) = true := by rw [hkind]; rfl
  have hstep : ∀ i ∈ List.range (length / e.size),
      d.elementStep bytes (d.recordView bytes usage d.config.maxDepth) t.pointee e.size 0 length
        name i =
      ⟨.ok (e.viewOf (bytes.window (i * e.size) e.size).stored), [],
        e.warningsOf (bytes.window (i * e.size) e.size).stored⟩ := by
    intro i hi
    have hfit : i * e.size + e.size ≤ length := element_within (List.mem_range.1 hi)
    -- the place of an element of the buffer is a machine word
    have hplace : (Word.mul? i e.size).bind (Word.add? 0) = some (i * e.size) :=
      elementPlace_eq_some_iff.2 ⟨by omega, Nat.zero_add _⟩
    unfold elementStep elementView
    rw [hplace, hkind]
    exact enumerationView_of_within he hpos (by omega)
  rw [hrow.decode_eq_arrayView hcounted, arrayView, arrayElements_eq_mapM helements hsize hpos,
    mapM_of_ok hstep, bind_of_ok rfl, hruns, List.map_map, List.map_map, List.flatMap_map,
    List.flatMap_map]
  -- making an array of the elements reports nothing, and neither do the elements
  simp [Function.comp_def]

/-- **Enumerations are read back.** A row of an enumeration of any size, whose names are distinct,
is decoded to the views of the integers that are stored in its elements, and warns of what is said
of these and of nothing else. In a buffer that is made of encoded integers which fit, these are the
integers. Each is shown by the qualified name of the first entry that has it, whose name has that
value again, and without a warning; or, if no entry has it, by a cast of it and with one warning. -/
theorem enumeration_rows_read_back (hrow : d.IsRow t usage)
    (hkind : d.registry.kindOf t.pointee = .enumeration)
    (he : d.registry.enumerationOf t.pointee = .ok e) (hpos : 0 < e.size)
    (hdistinct : (e.entries.map (·.name)).Nodup) (name : String) :
    (∀ bytes : Bytes, bytes.length < Word.limit → d.decode bytes t usage name =
      ⟨.ok (.array (((counted usage (bytes.runs e.size)).map Bytes.stored).map e.viewOf)), [],
        ((counted usage (bytes.runs e.size)).map Bytes.stored).flatMap e.warningsOf⟩) ∧
    (∀ values : List Int, (∀ value ∈ values, Bytes.Fits e.size value) →
      (values.flatMap (Bytes.encode e.size)).length < Word.limit →
        d.decode (values.flatMap (Bytes.encode e.size)) t usage name =
          ⟨.ok (.array ((counted usage values).map e.viewOf)), [],
            (counted usage values).flatMap e.warningsOf⟩) ∧
    ∀ value : Int,
      (∃ entry, e.entries.find? (·.value = value) = some entry ∧
        e.viewOf value = .enumerator (e.qualify entry.name) ∧ e.warningsOf value = [] ∧
        e.valueOf? entry.name = some value) ∨
      (∀ entry ∈ e.entries, entry.value ≠ value) ∧
        e.viewOf value = .enumerator (Literal.enumerationCast (identifier e.name) value) ∧
        e.warningsOf value = [.valueOutOfRange e.name value] := by
  refine ⟨fun bytes hword => decode_enumeration_row hrow hkind he hpos hword name, ?_,
    Enumeration.named_or_cast hdistinct⟩
  intro values hfits hword
  have hruns : (Bytes.runs (values.flatMap (Bytes.encode e.size)) e.size).map Bytes.stored =
      values := by
    rw [Bytes.runs_flatMap hpos (Bytes.length_encode e.size), List.map_map]
    conv_rhs => rw [← List.map_id values]
    exact List.map_congr_left fun value hvalue => Bytes.stored_encode hpos (hfits value hvalue)
  -- the elements that count are counted before or after they are read
  have hcounted : (counted usage (Bytes.runs (values.flatMap (Bytes.encode e.size)) e.size)).map
      Bytes.stored = counted usage values := by
    conv_rhs => rw [← hruns]
    unfold counted
    split
    · exact List.map_take
    · rfl
  rw [decode_enumeration_row hrow hkind he hpos hword, hcounted]

/-- Gains of three bytes, of which two are the same. -/
def gainEnumeration : Enumeration where
  name := "gain"
  size := 3
  entries := [⟨"CUT", -2⟩, ⟨"UNIT", 1⟩, ⟨"ONE", 1⟩, ⟨"TOP", 0x7FFFFF⟩]
  scope := some "audio"

/-- A decoder that knows gains. -/
def gainDecoder : Decoder where
  registry := .ofLists [] [gainEnumeration] 8
  method := "mix"

/-- A row of a negative gain, of the one that has two names, and of an integer that is no gain. -/
theorem gains_read_back :
    [-2, 1, 5].flatMap (Bytes.encode 3) = [0xFE, 0xFF, 0xFF, 1, 0, 0, 5, 0, 0] ∧
      gainDecoder.decode ([-2, 1, 5].flatMap (Bytes.encode 3)) ((CType.simple "gain").array 3)
          .parameter "g" =
        ⟨.ok (.array [.enumerator "audio::CUT", .enumerator "audio::UNIT",
          .enumerator "(enum gain)(5)"]), [], [.valueOutOfRange "gain" 5]⟩ ∧
      gainEnumeration.valueOf? "UNIT" = some 1 := by
  have hrow : gainDecoder.IsRow ((CType.simple "gain").array 3) .parameter := ⟨rfl, .inl rfl⟩
  have hgain : gainDecoder.registry.enumerationOf ((CType.simple "gain").array 3).pointee =
      .ok gainEnumeration := rfl
  obtain ⟨-, hencoded, hnamed⟩ := enumeration_rows_read_back hrow rfl hgain (by decide) (by decide)
    "g"
  refine ⟨by decide, ?_, ?_⟩
  · exact hencoded [-2, 1, 5] (by decide) (by decide)
  · -- two entries have the value, and the first of them names it
    rcases hnamed 1 with ⟨entry, hentry, -, -, hvalue⟩ | ⟨hnone, -, -⟩
    · cases hentry
      exact hvalue
    · exact absurd rfl (hnone ⟨"UNIT", 1⟩ (by decide))

end Decoder

end SymVec

import SymVec.Decoder.Value
import SymVec.Proofs.IntegerLiterals
import SymVec.Proofs.ValueLayouts

/-!
# Predicates on integers

A predicate compares the literal of a value, and not the value itself: what was written with a
suffix is read again without it. On an integer this makes no difference. The predicate tells of the
integer that the buffer holds what its operator says of it, as a relation between integers of any
size, and it is an error exactly where the validation compares no such integer.

* `Bytes.toSigned_word` — the signed reading of a word is the integer in two's complement;
* `Comparison.holds_compare` — an operator on the order of two integers is the relation;
* `Predicate.make_eq_ok_iff` — the predicates that can be made;
* `Decoder.outcome_decode_primitive` — the literal of a stored integer;
* `Predicate.integers_compared` — a predicate on a decoded integer.
-/

namespace SymVec

/-! ### Stored integers -/

/-- The signed reading of a number that is no longer than its width is the textbook one: the upper
half of the numbers stands for the negative ones. -/
theorem Word.toSigned_of_lt {raw bits : Nat} (hne : 0 < bits) (hle : bits ≤ 64)
    (hlt : raw < 1 <<< bits) :
    Word.toSigned raw bits =
      if 1 <<< bits ≤ 2 * raw then (raw : Int) - (1 <<< bits : Nat) else raw := by
  have hbmod : Word.toSigned raw bits = Int.bmod raw (1 <<< bits) := by
    rw [Word.toSigned]
    split
    · -- all bits of a word, or none
      have hwhole : bits = 64 := by omega
      rw [hwhole]
      rfl
    · rfl
  rw [hbmod]
  -- the balanced remainder is that of the upper half
  generalize 1 <<< bits = count at hlt ⊢
  rw [Int.bmod_def, Int.emod_eq_of_lt (by omega) (by omega)]
  split <;> split <;> omega

namespace Bytes

/-- **Stored integer.** In two's complement if it has a sign: then the upper half of the numbers
stands for the negative ones. -/
def integer (signed : Bool) (run : Bytes) : Int :=
  if signed ∧ 1 <<< (8 * run.length) ≤ 2 * run.value then
    run.value - (1 <<< (8 * run.length) : Nat)
  else run.value

variable {run : Bytes}

/-- A run of at most eight bytes is a word as a whole. -/
theorem word_eq_value (hlength : run.length ≤ 8) : word run = value run := by
  rw [word, List.take_of_length_le hlength]

theorem one_shiftLeft_le {m n : Nat} (h : m ≤ n) : 1 <<< m ≤ 1 <<< n := by
  rw [Nat.one_shiftLeft, Nat.one_shiftLeft]
  exact Nat.pow_le_pow_right (by decide) h

theorem value_lt_limit (hlength : run.length ≤ 8) : run.value < 0x10000000000000000 :=
  calc run.value < 1 <<< (8 * run.length) := value_lt run
    _ ≤ 1 <<< 64 := one_shiftLeft_le (by omega)

/-- The signed reading of a run is its integer in two's complement. -/
theorem toSigned_word (hne : 0 < run.length) (hlength : run.length ≤ 8) :
    Word.toSigned (word run) (8 * run.length) = run.integer true := by
  rw [word_eq_value hlength, Word.toSigned_of_lt (by omega) (by omega) (value_lt run)]
  simp only [integer, true_and]

/-- With a sign an integer is within the range of its width, and so within that of a word. -/
theorem integer_signed_range (hne : 0 < run.length) (hlength : run.length ≤ 8) :
    -0x8000000000000000 ≤ run.integer true ∧ run.integer true < 0x8000000000000000 := by
  have hrange := Word.signed_range (word run) (8 * run.length) (by omega) (by omega)
  rw [toSigned_word hne hlength] at hrange
  have hhalf : 1 <<< (8 * run.length - 1) ≤ 0x8000000000000000 :=
    one_shiftLeft_le (show 8 * run.length - 1 ≤ 63 by omega)
  omega

end Bytes

/-! ### Comparisons of integers -/

namespace Comparison

/-- **Relation** between integers that the operator stands for. -/
def relates : Comparison → Int → Int → Bool
  | equal, x, y => decide (x = y)
  | different, x, y => decide (x ≠ y)
  | less, x, y => decide (x < y)
  | greater, x, y => decide (x > y)
  | atMost, x, y => decide (x ≤ y)
  | atLeast, x, y => decide (x ≥ y)

/-- An operator on the order of two integers is the relation it stands for. -/
theorem holds_compare (c : Comparison) (x y : Int) :
    c.holds (some (compare x y)) = c.relates x y := by
  -- each operator accepts some of the three orders
  rcases Int.lt_trichotomy x y with h | rfl | h
  · rw [Int.compare_eq_lt.2 h]
    cases c <;> simp [holds, relates] <;> omega
  · rw [Int.compare_eq_eq.2 rfl]
    cases c <;> simp [holds, relates]
  · rw [Int.compare_eq_gt.2 h]
    cases c <;> simp [holds, relates] <;> omega

end Comparison

/-! ### Literals of stored integers -/

namespace Decoder

variable {t : CType} {p : Primitive}

/-- A primitive value at the start of a buffer that is long enough. -/
theorem outcome_decode_primitive (d : Decoder) (hlevels : t.levels = [])
    (hp : t.primitive? = some p) {bytes : Bytes} (hsize : p.size ≤ bytes.length) (usage : Usage)
    (name : String) :
    (d.decode bytes t usage name).outcome =
      .ok (.primitive
        (Literal.scalar (Bytes.word (bytes.take p.size)) (8 * p.size) p t.baseName)) := by
  have hkind : d.registry.kindOf t = .primitive := Registry.kindOf_of_primitive? _ hlevels hp
  -- a read at the start takes the first bytes
  have hread : (readBytes bytes 0 p.size).outcome = .ok (bytes.take p.size) := by
    rw [outcome_readBytes, if_pos (by omega), List.drop_zero]
  rw [decode, hkind]
  simp only [primitiveView, hp]
  rw [Traced.bind_of_ok hread]
  rfl

end Decoder

namespace Comparable

/-- **The literal of a stored integer** is read as that integer. -/
theorem read?_scalar {v : Validation} (hv : v.IsInteger) {p : Primitive} (hrole : p.role = .integer)
    {run : Bytes} (hne : 0 < run.length) (hlength : run.length ≤ 8) (type : String) :
    read? (Literal.scalar (Bytes.word run) (8 * run.length) p type) v =
      if v.Compares (run.integer p.signed) then some (.integer (run.integer p.signed))
      else none := by
  -- the sign of the type chooses the literal, and the validation how it is read
  cases hsigned : p.signed with
  | true =>
    have hliteral : Literal.scalar (Bytes.word run) (8 * run.length) p type =
        Literal.signed (run.integer true) type := by
      simp only [Literal.scalar, hrole, hsigned, if_true, Bytes.toSigned_word hne hlength]
    obtain ⟨hlow, hhigh⟩ := Bytes.integer_signed_range hne hlength
    rw [hliteral, read?_signed hv hlow hhigh]
  | false =>
    have hliteral : Literal.scalar (Bytes.word run) (8 * run.length) p type =
        Literal.unsigned run.value type := by
      simp only [Literal.scalar, hrole, hsigned, Bool.false_eq_true, if_false,
        Bytes.word_eq_value hlength]
    have hinteger : run.integer false = run.value := by simp [Bytes.integer]
    rw [hliteral, hinteger, read?_unsigned hv (Bytes.value_lt_limit hlength)]

/-- What is compared as an integer is one. -/
theorem exists_integer_of_read? {v : Validation} (hv : v.IsInteger) {literal : String}
    {value : Comparable} (h : read? literal v = some value) : ∃ n, value = .integer n := by
  cases v with
  | signed width | unsigned width =>
    rw [read?, Option.map_eq_some_iff] at h
    obtain ⟨n, -, rfl⟩ := h
    exact ⟨n, rfl⟩
  | boolean | character | float | string => exact hv.elim

end Comparable

/-! ### Predicates -/

namespace Predicate

/-- **The predicates that can be made** have an operator, a validation and an expected value that is
one of the validation. -/
theorem make_eq_ok_iff {operator expected validation : String} {q : Predicate} :
    make operator expected validation = .ok q ↔
      Comparison.ofSymbol? operator = some q.comparison ∧
        Validation.ofName? validation = some q.validation ∧ q.expected = expected ∧
        Comparable.read? (quoted expected q.validation) q.validation = some q.value ∧
        fits q.validation q.value = true := by
  constructor
  · intro h
    unfold make at h
    split at h
    · cases h
    · next c hc =>
      split at h
      · cases h
      · next v hv =>
        unfold ofParts at h
        split at h
        · cases h
        · next value hvalue =>
          split at h
          · next hfits =>
            cases h
            exact ⟨hc, hv, rfl, hvalue, hfits⟩
          · cases h
  · rintro ⟨hc, hv, rfl, hvalue, hfits⟩
    simp only [make, hc, hv, ofParts, hvalue, hfits, if_true]

/-- **Predicates compare the integers in the buffer.** A value of an integer type is decoded at the
start of any buffer that is long enough. Of its literal a predicate with an integer validation says
what its operator says of the stored integer `x` and of the expected one, whatever the width and the
suffix of the type are and whether or not the type and the validation agree on the sign. Only where
the validation compares no such `x` is the literal not one of its values. -/
theorem integers_compared {t : CType} {p : Primitive} (hlevels : t.levels = [])
    (hp : t.primitive? = some p) (hrole : p.role = .integer) {bytes : Bytes}
    (hsize : p.size ≤ bytes.length) {x : Int} (hx : Bytes.integer p.signed (bytes.take p.size) = x)
    {operator expected validation : String} {c : Comparison} {v : Validation}
    (hc : Comparison.ofSymbol? operator = some c) (hv : Validation.ofName? validation = some v)
    (hinteger : v.IsInteger) {q : Predicate} (hq : make operator expected validation = .ok q)
    (d : Decoder) (usage : Usage) (name : String) :
    ∃ view e, (d.decode bytes t usage name).outcome = .ok view ∧ q.value = .integer e ∧
      q.holds view.literal =
        if v.Compares x then .ok (c.relates x e)
        else .error (.malformed s!"value {view.literal} is not a valid {v.title}") := by
  obtain ⟨hcomparison, hvalidation, -, hexpected, -⟩ := make_eq_ok_iff.1 hq
  obtain rfl : c = q.comparison := Option.some.inj (hc.symm.trans hcomparison)
  obtain rfl : v = q.validation := Option.some.inj (hv.symm.trans hvalidation)
  obtain ⟨e, he⟩ := Comparable.exists_integer_of_read? hinteger hexpected
  -- the literal is that of a run of one to eight bytes
  have hfind : Primitive.find? t.baseName = some p := by
    rw [CType.primitive?] at hp
    split at hp
    · cases hp
    · exact hp
  have hlength : (bytes.take p.size).length = p.size := by
    rw [List.length_take]
    omega
  have hbounds : 0 < p.size ∧ p.size ≤ 8 := by
    have hmem := Primitive.size_mem hfind
    simp only [List.mem_cons, List.not_mem_nil, or_false] at hmem
    omega
  have hne : 0 < (bytes.take p.size).length := by omega
  have hread := Comparable.read?_scalar hinteger hrole hne (by omega) t.baseName
  rw [hlength, hx] at hread
  refine ⟨_, e, Decoder.outcome_decode_primitive d hlevels hp hsize usage name, he, ?_⟩
  rw [holds, View.literal, hread]
  -- an integer that the validation does not have is an error of the case
  by_cases hcompares : q.validation.Compares x
  · rw [if_pos hcompares, if_pos hcompares, he, ← Comparison.holds_compare]
    rfl
  · rw [if_neg hcompares, if_neg hcompares]

/-- A decoder that knows no records. -/
def bareDecoder : Decoder := { method := "count" }

/-- Less than minus one. -/
def belowMinusOne : Predicate := ⟨.less, "-1", .signed .w32, .integer (-1)⟩

/-- The bytes of the least `long`. -/
def leastLong : Bytes := [0, 0, 0, 0, 0, 0, 0, 0x80]

/-- The least integer is below minus one, whatever the width of the validation is. The same bytes
without a sign are too great to be compared by it. -/
theorem leastLong_belowMinusOne :
    make "<" "-1" "int32_t" = .ok belowMinusOne ∧
    (∃ view, (bareDecoder.decode leastLong (.simple "long") .parameter "n").outcome = .ok view ∧
      belowMinusOne.holds view.literal = .ok true) ∧
    ∃ view, (bareDecoder.decode leastLong (.simple "size_t") .parameter "n").outcome = .ok view ∧
      belowMinusOne.holds view.literal = .error
        (.malformed s!"value {view.literal} is not a valid {belowMinusOne.validation.title}") := by
  have hmake : make "<" "-1" "int32_t" = .ok belowMinusOne :=
    make_eq_ok_iff.2 ⟨by decide, by decide, rfl, by decide +kernel, by decide⟩
  have hless : Comparison.ofSymbol? "<" = some .less := by decide
  have hint32 : Validation.ofName? "int32_t" = some (.signed .w32) := by decide
  have hlong : (CType.simple "long").primitive? = some ⟨8, .integer, true⟩ := rfl
  have hsizeT : (CType.simple "size_t").primitive? = some ⟨8, .integer, false⟩ := rfl
  have hsigned : Bytes.integer true (leastLong.take 8) = -0x8000000000000000 := by decide
  have hunsigned : Bytes.integer false (leastLong.take 8) = 0x8000000000000000 := by decide
  obtain ⟨long, e, hlong, he, hbelow⟩ := integers_compared rfl hlong rfl (by decide) hsigned
    hless hint32 trivial hmake bareDecoder .parameter "n"
  obtain ⟨size, _, hsize, _, hbeyond⟩ := integers_compared rfl hsizeT rfl (by decide) hunsigned
    hless hint32 trivial hmake bareDecoder .parameter "n"
  cases he
  -- without a sign the same bytes are beyond what a validation with one reads
  rw [if_neg (by decide)] at hbeyond
  exact ⟨hmake, ⟨long, hlong, hbelow⟩, size, hsize, hbeyond⟩

end Predicate

end SymVec

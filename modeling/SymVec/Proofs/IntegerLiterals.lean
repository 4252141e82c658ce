import SymVec.Predicate

/-!
# Reading integer literals

Integers are written with a suffix, and the least 64-bit integer as a difference. Where literals are
compared they are read without the suffix, as an integer of 64 bits with or without a sign. The
reading gives back the integer that was written whenever that is one of the integers it is made for,
and nothing otherwise.

* `Text.readInteger?_toString` — the decimal of an integer is read as that integer;
* `Comparable.read?_plain` — a decimal with a suffix;
* `Comparable.read?_least` — the least integer as a difference;
* `Comparable.read?_signed`, `Comparable.read?_unsigned` — the literals of integers with and without
  a sign.
-/

namespace SymVec

/-! ### Decimals -/

namespace Text

/-- The characters of the decimal of an integer. -/
theorem toList_toString (n : Int) :
    (toString n).toList =
      if 0 ≤ n then Nat.toDigits 10 n.toNat else '-' :: Nat.toDigits 10 (-n).toNat := by
  change n.repr.toList = _
  rw [Int.repr_eq_if]
  split
  · rw [Nat.repr_eq_ofList_toDigits, String.toList_ofList]
  · rw [String.toList_append, Nat.repr_eq_ofList_toDigits, String.toList_ofList,
      String.toList_ofList, List.singleton_append]

/-- Digits are read as the number that they write. -/
theorem digitsValue_toDigits (n : Nat) : Decimal.digitsValue (Nat.toDigits 10 n) = n :=
  Nat.ofDigitChars_ten_toDigits

/-- They are digits. -/
theorem isDigit_toDigits {n : Nat} : ∀ c ∈ Nat.toDigits 10 n, c.isDigit = true :=
  fun _ hc => Nat.isDigit_of_mem_toDigits (by decide) (Nat.le_refl 10) hc

/-- **Decimals** are read as the integers that they write. -/
theorem readInteger?_toString (n : Int) : readInteger? (toString n).toList = some n := by
  rw [toList_toString]
  split
  · next hn =>
    rw [readInteger?_digits Nat.toDigits_ne_nil isDigit_toDigits, digitsValue_toDigits]
    exact congrArg some (Int.toNat_of_nonneg hn)
  · next hn =>
    -- with a minus sign the magnitude is read and negated
    rw [readInteger?_neg Nat.toDigits_ne_nil isDigit_toDigits, digitsValue_toDigits]
    exact congrArg some (by omega)

/-- Without a minus sign, only an integer that is not negative is read. -/
theorem readNatural?_toString (n : Int) :
    readNatural? (toString n).toList = if 0 ≤ n then some n.toNat else none := by
  have hread : readInteger? (toString n).toList = some n := readInteger?_toString n
  have htext := toList_toString n
  unfold readNatural?
  split
  · next rest heq =>
    -- digits do not begin with a minus sign
    rw [heq] at htext
    split at htext
    · have hdigit : '-'.isDigit = true := isDigit_toDigits '-' (htext ▸ List.mem_cons_self)
      cases hdigit
    · next hn => rw [if_neg hn]
  · next hminus =>
    rw [hread]
    split
    · rfl
    · next hn =>
      rw [if_neg hn] at htext
      exact absurd htext (hminus _)

/-- Digits are no blanks. -/
theorem isBlank_of_isDigit {c : Char} (h : c.isDigit = true) : isBlank c = false := by
  have hrange := Char.isDigit_iff_toNat.1 h
  change 48 ≤ c.toNat ∧ c.toNat ≤ 57 at hrange
  simp only [isBlank, Bool.or_eq_false_iff, Bool.and_eq_false_iff, decide_eq_false_iff_not]
  omega

/-- A text without blanks is not trimmed. -/
theorem trim_of_not_isBlank {text : List Char} (h : ∀ c ∈ text, isBlank c = false) :
    trim text = text := by
  by_cases hne : text = []
  · rw [hne]
    rfl
  · have htrim : trim ([] ++ text ++ []) = text :=
      trim_append_blanks nofun nofun (fun c hc => h c (List.mem_of_mem_head? hc))
        (fun c hc => h c (List.mem_of_mem_getLast? hc)) hne
    rwa [List.nil_append, List.append_nil] at htrim

end Text

/-! ### Integers of a validation -/

namespace Validation

/-- Whether values are compared as integers. -/
def IsInteger : Validation → Prop
  | .signed _ | .unsigned _ => True
  | _ => False

/-- **Integers that a validation compares.** With a sign they are at most the greatest signed 64-bit
integer, without one they are not negative. -/
def Compares : Validation → Int → Prop
  | .signed _, n => n ≤ 0x7FFFFFFFFFFFFFFF
  | .unsigned _, n => 0 ≤ n
  | _, _ => False

instance (v : Validation) (n : Int) : Decidable (v.Compares n) := by
  cases v <;> unfold Compares <;> infer_instance

end Validation

namespace Comparable

/-! ### Decimals with a suffix -/

/-- The letters of suffixes. -/
def suffixLetters : List Char := ['u', 'U', 'l', 'L']

/-- Neither a blank nor a part of a decimal. -/
theorem suffixLetters_apart {c : Char} (h : c ∈ suffixLetters) :
    Text.isBlank c = false ∧ c.isDigit = false ∧ c ≠ '-' := by
  simp only [suffixLetters, List.mem_cons, List.not_mem_nil, or_false] at h
  rcases h with rfl | rfl | rfl | rfl
  all_goals exact ⟨rfl, rfl, by decide⟩

/-- The suffix of a type is made of these letters. -/
theorem suffix_letters (type : String) :
    ∀ c ∈ (Literal.suffix type).toList, c ∈ suffixLetters := by
  -- there are six suffixes in all
  have hall : ["", "L", "LL", "U", "UL", "ULL"].all
      (fun s => s.toList.all suffixLetters.contains) = true := by decide
  intro c hc
  exact List.contains_iff_mem.1
    (List.all_eq_true.1 (List.all_eq_true.1 hall _ (Literal.suffix_mem type)) c hc)

/-- A digit or a minus sign. -/
theorem isDigit_or_minus {n : Int} {c : Char} (h : c ∈ (toString n).toList) :
    c.isDigit = true ∨ c = '-' := by
  rw [Text.toList_toString] at h
  split at h
  · exact .inl (Text.isDigit_toDigits c h)
  · rcases List.mem_cons.1 h with rfl | h
    · exact .inr rfl
    · exact .inl (Text.isDigit_toDigits c h)

/-- A decimal with a suffix has no blanks. -/
theorem not_isBlank_plain {n : Int} {tail : List Char} (htail : ∀ c ∈ tail, c ∈ suffixLetters) :
    ∀ c ∈ (toString n).toList ++ tail, Text.isBlank c = false := by
  intro c hc
  rcases List.mem_append.1 hc with hc | hc
  · rcases isDigit_or_minus hc with hdigit | rfl
    · exact Text.isBlank_of_isDigit hdigit
    · rfl
  · exact (suffixLetters_apart (htail c hc)).1

/-- The suffix is cut off, and nothing else. -/
theorem unsuffixed_plain {n : Int} {tail : List Char} (htail : ∀ c ∈ tail, c ∈ suffixLetters) :
    unsuffixed ((toString n).toList ++ tail) = (toString n).toList := by
  rw [unsuffixed, Text.trim_of_not_isBlank (not_isBlank_plain htail)]
  refine Text.dropEndWhile_append (fun c hc => ?_) (fun c hc => ?_)
  · exact List.contains_iff_mem.2 (htail c hc)
  · -- the last character of the decimal is a digit, which is no letter of a suffix
    refine Bool.eq_false_iff.2 fun hletter => ?_
    obtain ⟨-, hdigit, hminus⟩ := suffixLetters_apart (List.contains_iff_mem.1 hletter)
    rcases isDigit_or_minus (List.mem_of_mem_getLast? hc) with h | h
    · rw [h] at hdigit
      cases hdigit
    · exact hminus h

/-- A decimal begins with no parenthesis. -/
theorem isLeastForm_plain (n : Int) (tail : List Char) :
    isLeastForm ((toString n).toList ++ tail) = false := by
  have hform : "(-9223372036854775807".toList = '(' :: "-9223372036854775807".toList := by decide
  have hstart : ∀ c ∈ (toString n).toList, ('(' == c) = false := by
    intro c hc
    refine beq_eq_false_iff_ne.2 fun heq => ?_
    subst heq
    rcases isDigit_or_minus hc with hdigit | hminus
    · cases hdigit
    · cases hminus
  -- there is a first character, since the text is read as an integer
  have hne : (toString n).toList ≠ [] := by
    intro hnil
    have hread := Text.readInteger?_toString n
    rw [hnil] at hread
    cases hread
  obtain ⟨c, rest, htext⟩ := List.exists_cons_of_ne_nil hne
  rw [isLeastForm, hform, htext, List.cons_append, List.isPrefixOf_cons_cons,
    hstart c (htext ▸ List.mem_cons_self), Bool.false_and, Bool.false_and]

variable {v : Validation}

/-- **A decimal with a suffix**, of an integer that has 64 bits with a sign or without. -/
theorem read?_plain (hv : v.IsInteger) {n : Int} (hlow : -0x8000000000000000 ≤ n)
    (hhigh : n < 0x10000000000000000) {literal : String} {tail : List Char}
    (hliteral : literal.toList = (toString n).toList ++ tail)
    (htail : ∀ c ∈ tail, c ∈ suffixLetters) :
    read? literal v = if v.Compares n then some (.integer n) else none := by
  have htrim : Text.trim literal.toList = (toString n).toList ++ tail := by
    rw [hliteral, Text.trim_of_not_isBlank (not_isBlank_plain htail)]
  cases v with
  | signed width =>
    -- every validation with a sign reads 64 bits
    have hrange : Validation.inRange (.signed .w64) n = decide (n ≤ 0x7FFFFFFFFFFFFFFF) := by
      refine decide_eq_decide.2 ?_
      change -0x8000000000000000 ≤ n ∧ n < 0x8000000000000000 ↔ _
      omega
    have hread : readSigned? literal =
        (some n).filter fun n => Validation.inRange (.signed .w64) n := by
      rw [readSigned?, htrim, isLeastForm_plain, if_neg Bool.false_ne_true,
        unsuffixed_plain htail, Text.readInteger?_toString]
    rw [read?, hread, Option.filter_some, hrange]
    by_cases hn : n ≤ 0x7FFFFFFFFFFFFFFF <;> simp [Validation.Compares, hn]
  | unsigned width =>
    have hread : readUnsigned? literal =
        ((if 0 ≤ n then some n.toNat else none).map Int.ofNat).filter fun n =>
          Validation.inRange (.unsigned .w64) n := by
      rw [readUnsigned?, hliteral, unsuffixed_plain htail, Text.readNatural?_toString]
    rw [read?, hread]
    by_cases hn : 0 ≤ n
    · -- without a sign a negative integer is not read at all
      have hsame : Int.ofNat n.toNat = n := Int.toNat_of_nonneg hn
      have hrange : Validation.inRange (.unsigned .w64) n = true := by
        refine decide_eq_true ?_
        change 0 ≤ n ∧ n < 0x10000000000000000
        omega
      rw [if_pos hn, Option.map_some, hsame, Option.filter_some, hrange]
      simp [Validation.Compares, hn]
    · simp [Validation.Compares, hn]
  | boolean | character | float | string => exact hv.elim

/-- **The least integer** as a difference, whatever the suffix in it is. -/
theorem read?_least (hv : v.IsInteger) {suffix : String}
    (hsuffix : suffix ∈ ["", "L", "LL", "U", "UL", "ULL"]) :
    read? ("(-9223372036854775807" ++ suffix ++ " - 1)") v =
      if v.Compares Literal.leastInteger then some (.integer Literal.leastInteger) else none := by
  -- the six texts are read one by one
  have hall : ∀ s ∈ ["", "L", "LL", "U", "UL", "ULL"],
      readSigned? ("(-9223372036854775807" ++ s ++ " - 1)") = some Literal.leastInteger ∧
        readUnsigned? ("(-9223372036854775807" ++ s ++ " - 1)") = none := by decide +kernel
  obtain ⟨hsigned, hunsigned⟩ := hall suffix hsuffix
  cases v with
  | signed width =>
    rw [read?, hsigned]
    rfl
  | unsigned width =>
    rw [read?, hunsigned]
    rfl
  | boolean | character | float | string => exact hv.elim

/-! ### Literals of integers -/

/-- **A literal of an integer with a sign.** -/
theorem read?_signed (hv : v.IsInteger) {n : Int} (hlow : -0x8000000000000000 ≤ n)
    (hhigh : n < 0x8000000000000000) (type : String) :
    read? (Literal.signed n type) v = if v.Compares n then some (.integer n) else none := by
  -- the least integer is written as a difference, unless its type has no suffix
  by_cases hleast : n = Literal.leastInteger ∧ Literal.suffix type ≠ ""
  · obtain ⟨rfl, hsuffix⟩ := hleast
    rw [Literal.signed, if_pos ⟨rfl, hsuffix⟩]
    exact read?_least hv (Literal.suffix_mem type)
  · refine read?_plain hv hlow (by omega) ?_ (suffix_letters type)
    rw [Literal.signed, if_neg hleast, String.toList_append]

/-- **A literal of an integer without a sign.** -/
theorem read?_unsigned (hv : v.IsInteger) {n : Nat} (hhigh : n < 0x10000000000000000)
    (type : String) :
    read? (Literal.unsigned n type) v =
      if v.Compares n then some (.integer n) else none := by
  refine read?_plain hv (by omega) (by omega) ?_ (suffix_letters type)
  rw [Literal.unsigned, String.toList_append]
  rfl

end Comparable

end SymVec

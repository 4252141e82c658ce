import SymVec.Proofs.IntegerPredicates

/-!
# Expected integers

The expected value of a predicate on signed integers is given as a text. Blanks around it do not
count. It is a decimal with a sign and a suffix if that is wanted, and stands for the integer that
the decimal writes. Every other text is a bad configuration, and so is an integer that is out of
range, with a single exception. The least integer may be written as a difference, as its literal is.
Of such a text only the beginning and the end are looked at, and whatever stands between them is
passed over.

* `Text.trim_trim` — what is trimmed has no blanks at its ends;
* `Text.readInteger?_eq_some_iff` — the texts that are read as integers;
* `Comparable.isLeastForm_iff` — the texts that are taken for the least integer;
* `Comparable.readSigned?_eq_some_iff` — the texts that are read as signed integers of 64 bits;
* `Predicate.signed_expected` — the predicates that an expected text makes;
* `Predicate.exists_passed_over` — a difference with another value.
-/

namespace SymVec

/-! ### Trimmed texts -/

namespace Text

/-- What is dropped at the end of a text are characters that satisfy `p`, and before them there is
none. -/
theorem exists_dropEndWhile (p : Char → Bool) (text : List Char) :
    ∃ tail, text = dropEndWhile p text ++ tail ∧ (∀ c ∈ tail, p c = true) ∧
      ∀ c ∈ (dropEndWhile p text).getLast?, p c = false := by
  -- dropping at the end is dropping at the beginning of the reversed text
  refine ⟨(text.reverse.takeWhile p).reverse, ?_, fun c hc => ?_, fun c hc => ?_⟩
  · rw [dropEndWhile, ← List.reverse_append, List.takeWhile_append_dropWhile, List.reverse_reverse]
  · exact List.all_eq_true.1 List.all_takeWhile c (List.mem_reverse.1 hc)
  · rw [dropEndWhile, List.getLast?_reverse] at hc
    have hfirst := List.head?_dropWhile_not p text.reverse
    rw [hc] at hfirst
    exact hfirst

/-- A trimmed text has no blanks at its ends. -/
theorem trim_trim (text : List Char) : trim (trim text) = trim text := by
  obtain ⟨tail, htail, -, hlast⟩ := exists_dropEndWhile isBlank (trimStart text)
  have hstart := List.head?_dropWhile_not isBlank text
  -- what is cut at the end leaves the first character alone
  have hfirst : ∀ c ∈ (trim text).head?, isBlank c = false := by
    intro c hc
    have hkept : (text.dropWhile isBlank).head? = some c := by
      rw [← trimStart, htail, List.head?_append]
      exact Option.or_eq_some_iff.2 (.inl hc)
    rw [hkept] at hstart
    exact hstart
  by_cases hne : trim text = []
  · rw [hne]
    rfl
  · have htrim : trim ([] ++ trim text ++ []) = trim text :=
      trim_append_blanks nofun nofun hfirst hlast hne
    rwa [List.nil_append, List.append_nil] at htrim

/-! ### Decimals -/

/-- The sign of a decimal, which may be left out. -/
inductive Sign where
  | absent
  | plus
  | minus
  deriving DecidableEq, Repr

namespace Sign

/-- The sign as it is written. -/
def text : Sign → List Char
  | absent => []
  | plus => ['+']
  | minus => ['-']

/-- The integer of that sign and magnitude. -/
def value : Sign → Nat → Int
  | minus, n => -n
  | _, n => n

end Sign

/-- The sign before some digits is taken off, and is the sign that was written. -/
theorem splitSign_text (sign : Sign) {digits : List Char} (hne : digits ≠ [])
    (h : ∀ c ∈ digits, c.isDigit = true) :
    Decimal.splitSign (sign.text ++ digits) = (decide (sign = .minus), digits) := by
  cases sign with
  | absent =>
    obtain ⟨c, rest, rfl⟩ := List.exists_cons_of_ne_nil hne
    exact splitSign_of_isDigit (h c List.mem_cons_self)
  | plus | minus => rfl

/-- Every text is a sign, written or absent, and what is left without it. -/
theorem exists_sign (text : List Char) :
    ∃ sign : Sign, text = sign.text ++ (Decimal.splitSign text).2 ∧
      (Decimal.splitSign text).1 = decide (sign = .minus) := by
  unfold Decimal.splitSign
  split
  · exact ⟨.minus, rfl, rfl⟩
  · exact ⟨.plus, rfl, rfl⟩
  · exact ⟨.absent, rfl, rfl⟩

/-- **Decimals.** A text is read as an integer if it is a sign and some digits. -/
theorem readInteger?_eq_some_iff {text : List Char} {n : Int} :
    readInteger? text = some n ↔
      ∃ (sign : Sign) (digits : List Char), text = sign.text ++ digits ∧ digits ≠ [] ∧
        (∀ c ∈ digits, c.isDigit = true) ∧ n = sign.value (Decimal.digitsValue digits) := by
  constructor
  · intro h
    obtain ⟨sign, htext, hminus⟩ := exists_sign text
    unfold readInteger? at h
    -- the digits are what follows the sign, and the sign decides the value
    generalize Decimal.splitSign text = split at h htext hminus
    obtain ⟨negative, digits⟩ := split
    dsimp only at h htext hminus
    split at h
    · cases h
    · next hdigits =>
      simp only [Bool.or_eq_true, List.isEmpty_iff, Bool.not_eq_true', not_or,
        Bool.not_eq_false] at hdigits
      refine ⟨sign, digits, htext, hdigits.1, List.all_eq_true.1 hdigits.2, ?_⟩
      rw [← Option.some.inj h, hminus]
      cases sign <;> rfl
  · rintro ⟨sign, digits, rfl, hne, hdigits, rfl⟩
    unfold readInteger?
    rw [splitSign_text sign hne hdigits]
    dsimp only
    rw [if_neg]
    · cases sign <;> rfl
    · simp [hne, List.all_eq_true.2 hdigits]

end Text

namespace Comparable

open Text

/-! ### Signed integers -/

/-- **Decimal with a suffix**: a sign, digits, and any run of suffix letters. -/
def WritesDecimal (text : List Char) (n : Int) : Prop :=
  ∃ (sign : Sign) (digits tail : List Char), text = sign.text ++ digits ++ tail ∧ digits ≠ [] ∧
    (∀ c ∈ digits, c.isDigit = true) ∧ (∀ c ∈ tail, c ∈ suffixLetters) ∧
    n = sign.value (Decimal.digitsValue digits)

/-- **Difference.** The least integer as its literal writes it, with any run of suffix letters. -/
def WritesDifference (text : List Char) : Prop :=
  ∃ tail : List Char, (∀ c ∈ tail, c ∈ suffixLetters) ∧
    text = "(-9223372036854775807".toList ++ tail ++ " - 1)".toList

/-- A text that begins and ends like a difference. -/
def ResemblesDifference (text : List Char) : Prop :=
  ∃ between : List Char, text = "(-9223372036854775807".toList ++ between ++ "- 1)".toList

/-- A difference begins and ends like one. -/
theorem WritesDifference.resembles {text : List Char} (h : WritesDifference text) :
    ResemblesDifference text := by
  obtain ⟨tail, -, rfl⟩ := h
  refine ⟨tail ++ [' '], ?_⟩
  have hend : " - 1)".toList = [' '] ++ "- 1)".toList := by decide
  rw [hend]
  simp only [List.append_assoc]

/-- **The test for the least integer** is about the beginning and the end of a text. -/
theorem isLeastForm_iff {text : List Char} :
    isLeastForm text = true ↔ ResemblesDifference text := by
  rw [isLeastForm, Bool.and_eq_true, List.isPrefixOf_iff_prefix, List.isSuffixOf_iff_suffix]
  constructor
  · rintro ⟨⟨rest, rfl⟩, front, hend⟩
    rcases List.append_eq_append_iff.1 hend with ⟨overlap, hstart, hrest⟩ | ⟨between, -, rfl⟩
    · -- an overlap would end in a seven, as the beginning does, which the end has not
      have hseven : overlap.getLast? ≠ some '7' := by
        intro hlast
        have hmem : '7' ∈ "- 1)".toList := by
          rw [hrest]
          exact List.mem_append_left _ (List.mem_of_getLast? hlast)
        revert hmem
        decide
      have hlast : overlap.getLast?.or front.getLast? = some '7' := by
        rw [← List.getLast?_append, ← hstart]
        decide
      -- so beginning and end may touch, with nothing between them
      cases overlap with
      | nil =>
        rw [List.nil_append] at hrest
        exact ⟨[], by rw [← hrest, List.append_nil]⟩
      | cons c overlap =>
        rw [List.getLast?_cons, Option.some_or] at hlast
        exact absurd (List.getLast?_cons ▸ hlast) hseven
    · exact ⟨between, (List.append_assoc ..).symm⟩
  · rintro ⟨between, rfl⟩
    exact ⟨⟨_, (List.append_assoc ..).symm⟩, _, rfl⟩

/-- A decimal does not resemble a difference, for it opens no parenthesis. -/
theorem WritesDecimal.not_resembles {text : List Char} {n : Int} (h : WritesDecimal text n) :
    ¬ResemblesDifference text := by
  obtain ⟨sign, digits, tail, rfl, hne, hdigits, -⟩ := h
  rintro ⟨between, hsame⟩
  obtain ⟨c, rest, rfl⟩ := List.exists_cons_of_ne_nil hne
  have hstart : "(-9223372036854775807".toList = '(' :: "-9223372036854775807".toList := by decide
  rw [hstart] at hsame
  -- it opens with a digit or with its sign
  cases sign with
  | absent =>
    obtain ⟨rfl, -⟩ := List.cons.inj hsame
    exact absurd (hdigits '(' List.mem_cons_self) (by decide)
  | plus | minus => exact absurd (List.cons.inj hsame).1 (by decide)

/-- Without its suffix a decimal is read as the integer that it writes. -/
theorem readInteger?_dropEndWhile_iff {text : List Char} {n : Int} :
    readInteger? (dropEndWhile (fun c => ['u', 'U', 'l', 'L'].contains c) text) = some n ↔
      WritesDecimal text n := by
  rw [readInteger?_eq_some_iff]
  constructor
  · rintro ⟨sign, digits, hkept, hne, hdigits, rfl⟩
    obtain ⟨tail, htext, htail, -⟩ :=
      exists_dropEndWhile (fun c => ['u', 'U', 'l', 'L'].contains c) text
    rw [hkept] at htext
    exact ⟨sign, digits, tail, htext, hne, hdigits,
      fun c hc => List.contains_iff_mem.1 (htail c hc), rfl⟩
  · rintro ⟨sign, digits, tail, rfl, hne, hdigits, htail, rfl⟩
    refine ⟨sign, digits, ?_, hne, hdigits, rfl⟩
    -- the last character before the suffix is a digit, and no letter of it
    refine dropEndWhile_append (fun c hc => List.contains_iff_mem.2 (htail c hc)) fun c hc => ?_
    have hlast : c ∈ digits := by
      rw [List.getLast?_append, List.getLast?_eq_some_getLast hne, Option.some_or] at hc
      exact Option.some.inj hc ▸ List.getLast_mem hne
    refine Bool.eq_false_iff.2 fun hletter => ?_
    have hdigit := hdigits c hlast
    rw [(suffixLetters_apart (List.contains_iff_mem.1 hletter)).2.1] at hdigit
    cases hdigit

/-- **The integer that a text denotes**: that of a decimal, or the least one if it is written as a
difference. -/
def Denotes (text : List Char) (n : Int) : Prop :=
  WritesDecimal text n ∨ WritesDifference text ∧ n = Literal.leastInteger

/-- A text that begins and ends like a difference, with something else between. -/
def PassedOver (text : List Char) : Prop :=
  ResemblesDifference text ∧ ¬WritesDifference text

/-- The texts that are read are those that denote an integer, and those of which a part is passed
over. -/
theorem denotes_or_passedOver_iff {text : List Char} {n : Int} :
    Denotes text n ∨ PassedOver text ∧ n = Literal.leastInteger ↔
      WritesDecimal text n ∨ ResemblesDifference text ∧ n = Literal.leastInteger := by
  -- a difference denotes the least integer, so only others are passed over
  by_cases hdifference : WritesDifference text
  · simp [Denotes, PassedOver, hdifference, hdifference.resembles]
  · simp [Denotes, PassedOver, hdifference]

/-- **Signed integers of 64 bits.** A text that denotes an integer is read as that, if it has 64
bits, and a text of which a part is passed over as the least one. -/
theorem readSigned?_eq_some_iff {literal : String} {n : Int} :
    readSigned? literal = some n ↔
      (Denotes (trim literal.toList) n ∨
          PassedOver (trim literal.toList) ∧ n = Literal.leastInteger) ∧
        Validation.inRange (.signed .w64) n = true := by
  rw [denotes_or_passedOver_iff]
  unfold readSigned?
  dsimp only
  -- the form of the least integer is tried first, whatever its suffix and its middle
  by_cases hleast : ResemblesDifference (trim literal.toList)
  · rw [if_pos (isLeastForm_iff.2 hleast), Option.some.injEq]
    constructor
    · rintro rfl
      exact ⟨.inr ⟨hleast, rfl⟩, by decide⟩
    · rintro ⟨hdecimal | ⟨-, rfl⟩, -⟩
      · -- a text cannot be both
        exact absurd hleast hdecimal.not_resembles
      · rfl
  · rw [if_neg fun h => hleast (isLeastForm_iff.1 h), Option.filter_eq_some_iff, unsuffixed,
      trim_trim, readInteger?_dropEndWhile_iff]
    simp only [hleast, false_and, or_false]

/-- Nothing is read of a text that is neither passed over nor denotes an integer of 64 bits. -/
theorem readSigned?_eq_none_iff {literal : String} :
    readSigned? literal = none ↔
      ¬PassedOver (trim literal.toList) ∧
        ∀ n, Denotes (trim literal.toList) n → Validation.inRange (.signed .w64) n = false := by
  have hleast : Validation.inRange (.signed .w64) Literal.leastInteger = true := by decide
  rw [Option.eq_none_iff_forall_ne_some]
  constructor
  · refine fun hnone => ⟨fun hpassed => ?_, fun n hn => Bool.eq_false_iff.2 fun hrange => ?_⟩
    · exact hnone _ (readSigned?_eq_some_iff.2 ⟨.inr ⟨hpassed, rfl⟩, hleast⟩)
    · exact hnone n (readSigned?_eq_some_iff.2 ⟨.inl hn, hrange⟩)
  · rintro ⟨hpassed, hdenotes⟩ n hsome
    obtain ⟨hn | ⟨h, -⟩, hrange⟩ := readSigned?_eq_some_iff.1 hsome
    · exact Bool.eq_false_iff.1 (hdenotes n hn) hrange
    · exact hpassed h

end Comparable

/-! ### Predicates on signed integers -/

namespace Validation

/-- What has no more than some width has no more than 64 bits. -/
theorem inRange_w64 {width : Width} {n : Int} (h : inRange (.signed width) n = true) :
    inRange (.signed .w64) n = true := by
  have hbits : width.bits ≤ 64 := by cases width <;> decide
  have hhalf : 1 <<< (width.bits - 1) ≤ 1 <<< (Width.w64.bits - 1) :=
    Bytes.one_shiftLeft_le (by simp only [Width.bits] at hbits ⊢; omega)
  simp only [inRange, decide_eq_true_eq] at h ⊢
  omega

end Validation

namespace Predicate

open Text Comparable

variable {operator expected validation : String} {c : Comparison} {width : Width}

/-- The predicate of an expected text that is read as a signed integer, or not at all. -/
theorem make_signed (hc : Comparison.ofSymbol? operator = some c)
    (hv : Validation.ofName? validation = some (.signed width)) :
    make operator expected validation =
      match readSigned? expected with
      | none =>
        .error (.configuration
          s!"expected value {expected} is not a valid {(Validation.signed width).title}")
      | some n =>
        if (Validation.signed width).inRange n then
          .ok ⟨c, expected, .signed width, .integer n⟩
        else .error (.configuration
          s!"expected value {expected} is out of range for {(Validation.signed width).title}") := by
  simp only [make, hc, hv, ofParts, quoted, read?]
  cases readSigned? expected <;> rfl

/-- A predicate compares with the integer that is read. -/
theorem make_signed_eq_ok_iff (hc : Comparison.ofSymbol? operator = some c)
    (hv : Validation.ofName? validation = some (.signed width)) {q : Predicate} :
    make operator expected validation = .ok q ↔
      ∃ n, readSigned? expected = some n ∧ (Validation.signed width).inRange n = true ∧
        q = ⟨c, expected, .signed width, .integer n⟩ := by
  rw [make_signed hc hv]
  cases readSigned? expected with
  | none => exact ⟨nofun, fun ⟨_, hnone, _⟩ => nomatch hnone⟩
  | some n =>
    dsimp only
    constructor
    · intro h
      split at h
      · next hrange => exact ⟨n, rfl, hrange, (Except.ok.inj h).symm⟩
      · cases h
    · rintro ⟨m, hm, hrange, rfl⟩
      obtain rfl := Option.some.inj hm
      rw [if_pos hrange]

/-- There is no predicate of an integer that is out of range, and none where nothing is read. -/
theorem make_signed_eq_error_iff (hc : Comparison.ofSymbol? operator = some c)
    (hv : Validation.ofName? validation = some (.signed width)) {e : DecodeError} :
    make operator expected validation = .error e ↔
      (∃ n, readSigned? expected = some n ∧ (Validation.signed width).inRange n = false ∧
        e = .configuration
          s!"expected value {expected} is out of range for {(Validation.signed width).title}") ∨
      (readSigned? expected = none ∧
        e = .configuration
          s!"expected value {expected} is not a valid {(Validation.signed width).title}") := by
  rw [make_signed hc hv]
  cases readSigned? expected with
  | none =>
    dsimp only
    constructor
    · exact fun h => .inr ⟨rfl, (Except.error.inj h).symm⟩
    · rintro (⟨_, hnone, -⟩ | ⟨-, rfl⟩)
      · cases hnone
      · rfl
  | some n =>
    dsimp only
    constructor
    · intro h
      split at h
      · cases h
      · next hrange =>
        exact .inl ⟨n, rfl, Bool.eq_false_iff.2 hrange, (Except.error.inj h).symm⟩
    · rintro (⟨m, hm, hrange, rfl⟩ | ⟨hsome, -⟩)
      · obtain rfl := Option.some.inj hm
        rw [if_neg (Bool.eq_false_iff.1 hrange)]
      · cases hsome

/-- **Predicates on signed integers.** A predicate is made of every text that denotes, without the
blanks around it, an integer that the validation has, and compares with that integer. It is also
made of the least integer where a part of the text is passed over. Every other text is a bad
configuration: out of range if it denotes an integer of 64 bits, and else no integer at all. -/
theorem signed_expected (hc : Comparison.ofSymbol? operator = some c)
    (hv : Validation.ofName? validation = some (.signed width)) :
    (∀ q : Predicate, make operator expected validation = .ok q ↔
      ∃ n, (Denotes (trim expected.toList) n ∨
          PassedOver (trim expected.toList) ∧ n = Literal.leastInteger) ∧
        (Validation.signed width).inRange n = true ∧ q = ⟨c, expected, .signed width, .integer n⟩) ∧
    ∀ e : DecodeError, make operator expected validation = .error e ↔
      (∃ n, (Denotes (trim expected.toList) n ∨
          PassedOver (trim expected.toList) ∧ n = Literal.leastInteger) ∧
        (Validation.signed .w64).inRange n = true ∧ (Validation.signed width).inRange n = false ∧
        e = .configuration
          s!"expected value {expected} is out of range for {(Validation.signed width).title}") ∨
      (¬PassedOver (trim expected.toList) ∧
        (∀ n, Denotes (trim expected.toList) n → (Validation.signed .w64).inRange n = false) ∧
        e = .configuration
          s!"expected value {expected} is not a valid {(Validation.signed width).title}") := by
  refine ⟨fun q => ?_, fun e => ?_⟩
  · rw [make_signed_eq_ok_iff hc hv]
    refine exists_congr fun n => ?_
    rw [readSigned?_eq_some_iff]
    constructor
    · rintro ⟨⟨hn, -⟩, hrange, hq⟩
      exact ⟨hn, hrange, hq⟩
    · rintro ⟨hn, hrange, hq⟩
      -- what the validation has, has 64 bits
      exact ⟨⟨hn, Validation.inRange_w64 hrange⟩, hrange, hq⟩
  · rw [make_signed_eq_error_iff hc hv, readSigned?_eq_none_iff, and_assoc]
    -- what is out of range is read, and what is no integer is not
    refine or_congr (exists_congr fun n => ?_) Iff.rfl
    rw [readSigned?_eq_some_iff, and_assoc]

/-- The texts of a number with a suffix, of one that is too great and of a difference. -/
theorem least_expected :
    make "==" " -128L " "int8_t" = .ok ⟨.equal, " -128L ", .signed .w8, .integer (-128)⟩ ∧
    make "<" "+0128" "int8" =
      .error (.configuration "expected value +0128 is out of range for Int8") ∧
    make ">" "(-9223372036854775807LL - 1)" "int64_t" =
      .ok ⟨.greater, "(-9223372036854775807LL - 1)", .signed .w64,
        .integer Literal.leastInteger⟩ := by
  -- what the characters of a text are is checked one by one
  have hdigits : ("128".toList.all Char.isDigit && "0128".toList.all Char.isDigit) = true := by
    decide
  have hsuffixes : (['L'].all suffixLetters.contains && ['L', 'L'].all suffixLetters.contains) =
      true := by decide
  obtain ⟨hshort, hlong⟩ := Bool.and_eq_true_iff.1 hdigits
  obtain ⟨hone, htwo⟩ := Bool.and_eq_true_iff.1 hsuffixes
  have hless : Comparison.ofSymbol? "<" = some .less := by decide
  have hint8 : Validation.ofName? "int8" = some (.signed .w8) := by decide
  refine ⟨?_, ?_, ?_⟩
  · refine ((signed_expected (by decide) (by decide)).1 _).2 ⟨-128, .inl (.inl ?_), by decide, rfl⟩
    exact ⟨.minus, "128".toList, ['L'], by decide, by decide, List.all_eq_true.1 hshort,
      fun c hc => List.contains_iff_mem.1 (List.all_eq_true.1 hone c hc), rfl⟩
  · refine ((signed_expected hless hint8).2 _).2
      (.inl ⟨128, .inl (.inl ?_), by decide, by decide, rfl⟩)
    exact ⟨.plus, "0128".toList, [], by decide, by decide, List.all_eq_true.1 hlong,
      fun c hc => absurd hc List.not_mem_nil, rfl⟩
  · refine ((signed_expected (by decide) (by decide)).1 _).2
      ⟨Literal.leastInteger, .inl (.inr ⟨⟨['L', 'L'], ?_, by decide⟩, rfl⟩), by decide, rfl⟩
    exact fun c hc => List.contains_iff_mem.1 (List.all_eq_true.1 htwo c hc)

/-- The text of a difference that is greater by five. -/
def greaterByFive : String := "(-9223372036854775807 + 5 - 1)"

/-- **A part that is passed over.** A text that writes another difference is taken for the least
integer. -/
theorem exists_passed_over :
    make "==" greaterByFive "int64_t" =
      .ok ⟨.equal, greaterByFive, .signed .w64, .integer Literal.leastInteger⟩ ∧
    ∀ n, ¬Denotes (trim greaterByFive.toList) n := by
  have hresembles : ResemblesDifference (trim greaterByFive.toList) :=
    ⟨" + 5 ".toList, by decide⟩
  have hdifference : ¬WritesDifference (trim greaterByFive.toList) := by
    rintro ⟨tail, htail, hsame⟩
    have htext : trim greaterByFive.toList =
        "(-9223372036854775807".toList ++ " + 5 - 1)".toList := by decide
    rw [htext, List.append_assoc] at hsame
    have hrest := List.append_cancel_left hsame
    -- the first character after the beginning is a blank, and no letter of a suffix
    cases tail with
    | nil => exact absurd hrest (by decide)
    | cons letter tail =>
      obtain ⟨rfl, -⟩ := List.cons.inj (List.cons_append ▸ hrest)
      exact absurd (htail _ List.mem_cons_self) (by decide)
  refine ⟨?_, fun n => not_or.2 ⟨fun h => h.not_resembles hresembles, fun h => hdifference h.1⟩⟩
  have hequal : Comparison.ofSymbol? "==" = some .equal := by decide
  have hint64 : Validation.ofName? "int64_t" = some (.signed .w64) := by decide
  have hread : readSigned? greaterByFive = some Literal.leastInteger :=
    readSigned?_eq_some_iff.2 ⟨.inr ⟨⟨hresembles, hdifference⟩, rfl⟩, by decide⟩
  rw [make_signed hequal hint64, hread]
  exact if_pos (by decide)

end Predicate

end SymVec

import SymVec.Literal.Reference
import SymVec.Literal.Scalar
import SymVec.Proofs.IntegerLiterals

/-!
# Literals of infinities and NaNs

What is no finite number is written by one of four names, and is told from its literal. This is
safe, since no other literal has such a name: all of them show it by their first character after a
minus sign. Numbers begin with a digit there, the least integer and addresses with a parenthesis,
characters with a quote, and truth values with a small letter; null is none of the four.

* `Literal.isSpecial_of_isUnnamed` — a text that begins with no capital `N` or `I`;
* `Literal.isSpecial_floating` — a floating-point number by its bit pattern;
* `Literal.isSpecial_scalar_iff` — a stored scalar by the exponent bits of its word;
* `Literal.isSpecial_address` — addresses.
-/

namespace SymVec

/-- The format in which a floating-point number of the type is stored. -/
def Primitive.format (p : Primitive) : Binary.Format := if p.size = 4 then .single else .double

namespace Literal

/-! ### First characters -/

/-- Whether a text begins, a minus sign aside, with a character that begins no special name. -/
def isUnnamed : List Char → Bool
  | '-' :: c :: _ => c != 'N' && c != 'I'
  | c :: _ => c != 'N' && c != 'I'
  | [] => true

/-- Such a text is none of the special names. -/
theorem isSpecial_of_isUnnamed {text : String} (h : isUnnamed text.toList = true) :
    isSpecial text = false := by
  have hnames : ∀ name ∈ ["NAN", "-NAN", "INFINITY", "-INFINITY"],
      isUnnamed name.toList = false := by decide
  refine Bool.eq_false_iff.2 fun hspecial => ?_
  rw [hnames text (List.contains_iff_mem.1 hspecial)] at h
  cases h

/-- A digit begins no special name, with or without a sign. -/
theorem isUnnamed_of_isDigit {c : Char} (h : c.isDigit = true) (rest : List Char) :
    isUnnamed (c :: rest) = true ∧ isUnnamed ('-' :: c :: rest) = true := by
  -- no digit is a letter or a sign
  have hother : ∀ letter : Char, letter.isDigit = false → c ≠ letter := by
    rintro letter hletter rfl
    rw [hletter] at h
    cases h
  have hN : c ≠ 'N' := hother 'N' (by decide)
  have hI : c ≠ 'I' := hother 'I' (by decide)
  constructor
  · unfold isUnnamed
    split
    · next heq => exact absurd (List.cons.inj heq).1 (hother '-' (by decide))
    · next heq =>
      obtain ⟨rfl, -⟩ := List.cons.inj heq
      simp [hN, hI]
    · rfl
  · simp [isUnnamed, hN, hI]

/-! ### Decimals -/

/-- A text that begins with a digit. -/
def OpensWithDigit (text : List Char) : Prop :=
  ∃ c rest, text = c :: rest ∧ c.isDigit = true

theorem opensWithDigit_of_ne_nil {digits : List Char} (hne : digits ≠ [])
    (h : ∀ c ∈ digits, c.isDigit = true) (tail : List Char) : OpensWithDigit (digits ++ tail) := by
  obtain ⟨c, rest, rfl⟩ := List.exists_cons_of_ne_nil hne
  exact ⟨c, rest ++ tail, rfl, h c List.mem_cons_self⟩

/-- A text that begins with a digit is unnamed, with or without a sign. -/
theorem OpensWithDigit.isUnnamed {text : List Char} (h : OpensWithDigit text) :
    isUnnamed text = true ∧ Literal.isUnnamed ('-' :: text) = true := by
  obtain ⟨c, rest, rfl, hdigit⟩ := h
  exact isUnnamed_of_isDigit hdigit rest

/-- A number in decimal, with whatever follows it. -/
theorem opensWithDigit_toDigits (n : Nat) (tail : List Char) :
    OpensWithDigit (Nat.toDigits 10 n ++ tail) :=
  opensWithDigit_of_ne_nil Nat.toDigits_ne_nil Text.isDigit_toDigits tail

/-- An integer with whatever follows it. -/
theorem isSpecial_toString (n : Int) (tail : String) : isSpecial (toString n ++ tail) = false := by
  refine isSpecial_of_isUnnamed ?_
  rw [String.toList_append, Text.toList_toString]
  split
  · exact (opensWithDigit_toDigits _ _).isUnnamed.1
  · exact (opensWithDigit_toDigits _ _).isUnnamed.2

end Literal

namespace Decimal.Layout

open Literal

/-- Positional notation has a digit before the point. -/
theorem opensWithDigit_positional {digits : List Char} (hne : digits ≠ [])
    (h : ∀ c ∈ digits, c.isDigit = true) (exponent : Int) :
    OpensWithDigit (positional digits exponent) := by
  unfold positional
  dsimp only
  -- the point stands behind all digits, among them, or behind a zero before them
  split
  · rw [List.append_assoc]
    exact opensWithDigit_of_ne_nil hne h _
  · split
    · next hwhole =>
      refine opensWithDigit_of_ne_nil (fun hnil => ?_) (fun c hc => h c (List.mem_of_mem_take hc)) _
      rcases List.take_eq_nil_iff.1 hnil with hzero | hnil
      · omega
      · exact hne hnil
    · exact ⟨'0', _, rfl, by decide⟩

/-- Scientific notation begins with the first digit. -/
theorem opensWithDigit_scientific {digits : List Char} (hne : digits ≠ [])
    (h : ∀ c ∈ digits, c.isDigit = true) (place : Int) :
    OpensWithDigit (scientific digits place) := by
  obtain ⟨c, rest, rfl⟩ := List.exists_cons_of_ne_nil hne
  exact ⟨c, _, rfl, h c List.mem_cons_self⟩

/-- Either notation begins with a digit. -/
theorem opensWithDigit_write (layout : Layout) (c : Candidate) :
    OpensWithDigit (layout.write c) := by
  unfold write
  dsimp only
  split
  · exact opensWithDigit_positional Nat.toDigits_ne_nil Text.isDigit_toDigits _
  · exact opensWithDigit_scientific Nat.toDigits_ne_nil Text.isDigit_toDigits _

end Decimal.Layout

namespace Literal

/-- **A finite number** is written as a decimal, and not by a name. -/
theorem isSpecial_finite (format : Binary.Format) (negative : Bool) (significand : Nat)
    (exponent : Int) : isSpecial (finite format negative significand exponent) = false := by
  unfold finite
  dsimp only
  split
  · -- zero is spelled out, with either sign
    cases negative <;> decide
  · -- a number that is not zero is written by its shortest decimal
    have hwrite := Decimal.Layout.opensWithDigit_write floatLayout (Decimal.stripZeros 17
      (Decimal.Target.shortest ⟨format, significand, exponent⟩))
    refine isSpecial_of_isUnnamed ?_
    rw [String.toList_append, String.toList_ofList]
    cases negative with
    | false => exact hwrite.isUnnamed.1
    | true => exact hwrite.isUnnamed.2

/-- **Floating-point numbers** have a special literal if they are no finite numbers. -/
theorem isSpecial_floating (format : Binary.Format) (bits : Nat) :
    isSpecial (floating format bits) = format.isSpecial bits := by
  unfold floating Binary.Format.isSpecial
  cases format.decode bits with
  | nan negative => cases negative <;> rfl
  | infinite negative => cases negative <;> rfl
  | finite negative significand exponent => exact isSpecial_finite _ _ _ _

/-! ### Scalars -/

/-- The exponent bits of a four-byte number lie in its four bytes. -/
theorem exponentField_single_mod (raw : Nat) :
    Binary.Format.single.exponentField (raw % 0x100000000) =
      Binary.Format.single.exponentField raw := by
  have hfield : ∀ bits, Binary.Format.single.exponentField bits = bits / 8388608 % 256 :=
    fun bits => by
      rw [Binary.Format.exponentField, Nat.shiftRight_eq_div_pow]
      rfl
  rw [hfield, hfield]
  omega

theorem isSpecial_boolean (value : Bool) : isSpecial (boolean value) = false := by
  cases value <;> decide

theorem isSpecial_character (code : Int) : isSpecial (character code) = false := by
  refine isSpecial_of_isUnnamed ?_
  rw [character, String.toList_ofList]
  rfl

/-- Integers are digits, or the difference in parentheses. -/
theorem isSpecial_signed (value : Int) (type : String) : isSpecial (signed value type) = false := by
  unfold signed
  split
  · -- the difference begins with a parenthesis
    refine isSpecial_of_isUnnamed ?_
    rw [String.toList_append, String.toList_append]
    rfl
  · exact isSpecial_toString value _

theorem isSpecial_unsigned (value : Nat) (type : String) :
    isSpecial (unsigned value type) = false :=
  isSpecial_toString (value : Int) _

/-- **Scalars.** A stored scalar has a special literal if it is a floating-point number whose
exponent bits are all ones. -/
theorem isSpecial_scalar_iff {raw bits : Nat} {p : Primitive} {type : String} :
    isSpecial (scalar raw bits p type) = true ↔
      p.isFloating = true ∧ p.format.exponentField raw = p.format.specialExponent := by
  have hinteger : ∀ n : Int, isSpecial (toString n) = false := fun n => by
    have h := isSpecial_toString n ""
    rwa [String.append_empty] at h
  obtain ⟨size, role, signed⟩ := p
  -- the literal of any other scalar is an integer, a character or a truth value
  have hother : ∀ {text : String}, role ≠ .floating → isSpecial text = false →
      (isSpecial text = true ↔ (Primitive.mk size role signed).isFloating = true ∧
        (Primitive.mk size role signed).format.exponentField raw =
          (Primitive.mk size role signed).format.specialExponent) :=
    fun hrole hplain => iff_of_false (Bool.eq_false_iff.1 hplain) fun h =>
      hrole (of_decide_eq_true h.1)
  unfold scalar
  cases role with
  | boolean => exact hother (by decide) (isSpecial_boolean _)
  | character => exact hother (by decide) (isSpecial_character _)
  | byte => exact hother (by decide) (hinteger _)
  | void => exact hother (by decide) (hinteger (raw : Int))
  | integer =>
    cases signed with
    | false => exact hother (by decide) (isSpecial_unsigned _ _)
    | true => exact hother (by decide) (isSpecial_signed _ _)
  | floating =>
    simp only [Primitive.isFloating, Primitive.format, decide_true, true_and]
    split
    · rw [isSpecial_floating, Binary.Format.isSpecial_iff, exponentField_single_mod]
    · rw [isSpecial_floating, Binary.Format.isSpecial_iff]

/-! ### Addresses -/

/-- **Addresses**, null among them, are never special. -/
theorem isSpecial_address (value : Nat) (base : String) (dimension : Nat) :
    isSpecial (address value base dimension) = false := by
  unfold address
  split
  · decide
  · refine isSpecial_of_isUnnamed ?_
    -- an address begins with the parenthesis of its cast
    simp only [referenceCast, String.toList_append]
    rfl

end Literal

end SymVec

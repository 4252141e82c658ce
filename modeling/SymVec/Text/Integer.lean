import SymVec.Decimal.Reading

/-!
# Reading integers

An integer is an optional sign followed by one or more decimal digits.

* `Text.readInteger?_digits` — a run of digits reads as the number that it writes;
* `Text.readInteger?_neg` — with a minus sign it reads as the negated number.
-/

namespace SymVec.Text

/-- The integer that a text writes. -/
def readInteger? (text : List Char) : Option Int :=
  let (negative, digits) := Decimal.splitSign text
  -- a sign alone writes no number
  if digits.isEmpty || !digits.all Char.isDigit then none
  else
    let size : Int := Decimal.digitsValue digits
    some (if negative then -size else size)

/-- The integer that a text without a minus sign writes. -/
def readNatural? (text : List Char) : Option Nat :=
  match text with
  -- not even a negative zero
  | '-' :: _ => none
  | _ => (readInteger? text).map Int.toNat

/-- A text that starts with a digit has no sign. -/
theorem splitSign_of_isDigit {c : Char} {rest : List Char} (h : c.isDigit = true) :
    Decimal.splitSign (c :: rest) = (false, c :: rest) := by
  unfold Decimal.splitSign
  split
  · next heq => cases heq; exact absurd h (by decide)
  · next heq => cases heq; exact absurd h (by decide)
  · rfl

/-- A run of digits reads as the number that it writes. -/
theorem readInteger?_digits {digits : List Char} (hne : digits ≠ [])
    (h : ∀ c ∈ digits, c.isDigit = true) :
    readInteger? digits = some (Decimal.digitsValue digits : Int) := by
  cases digits with
  | nil => exact absurd rfl hne
  | cons c rest =>
    have hall : (c :: rest).all Char.isDigit = true := List.all_eq_true.2 h
    unfold readInteger?
    rw [splitSign_of_isDigit (h c (by simp))]
    simp [hall]

/-- With a minus sign in front it reads as the negated number. -/
theorem readInteger?_neg {digits : List Char} (hne : digits ≠ [])
    (h : ∀ c ∈ digits, c.isDigit = true) :
    readInteger? ('-' :: digits) = some (-(Decimal.digitsValue digits : Int)) := by
  have hall : digits.all Char.isDigit = true := List.all_eq_true.2 h
  have hne' : digits.isEmpty = false := by simpa using hne
  simp [readInteger?, Decimal.splitSign, hall, hne']

end SymVec.Text

import SymVec.Decimal.Binary

/-!
# Shortest decimals

The decimal with the fewest digits among those that round to a given floating-point value, and among
these the nearest to it. The reals that round to `m * 2 ^ q` lie between the midpoints to its two
neighbours, and the midpoints belong to them exactly if `m` is even.

For a growing number of digits the value is compared with its two neighbours on the grid of decimals
of that many digits. The first grid with a neighbour between the midpoints gives the answer.

* `Decimal.Target.shortest_contains` — the answer lies between the midpoints, or has the greatest
  number of digits that is tried;
* `Decimal.stripZeros_value` — dropping trailing zeros keeps the value.
-/

namespace SymVec.Decimal

/-- A positive floating-point value `significand * 2 ^ exponent` of a format. -/
structure Target where
  format : Binary.Format
  significand : Nat
  exponent : Int
  deriving Repr

/-- A positive decimal `digits * 10 ^ exponent`. -/
structure Candidate where
  digits : Nat
  exponent : Int
  deriving DecidableEq, Repr

namespace Target

variable (t : Target)

/-- The value as a fraction: its numerator. -/
def num : Nat := t.significand <<< t.exponent.toNat

/-- The value as a fraction: its denominator. -/
def den : Nat := 1 <<< (-t.exponent).toNat

/-- The lower midpoint, in quarters of a unit of the significand. Below a power of two the values
lie twice as dense. -/
def lowQuarters : Nat :=
  if t.significand = 1 <<< t.format.fractionBits then 4 * t.significand - 1
  else 4 * t.significand - 2

/-- The upper midpoint, in quarters of a unit of the significand. -/
def highQuarters : Nat := 4 * t.significand + 2

/-- The number of decimal digits of a natural number. -/
def digitCount (n : Nat) : Nat := (Nat.toDigits 10 n).length

/-- The power of ten of the leading digit. -/
def leadingExponent : Int :=
  if t.den ≤ t.num then (digitCount (t.num / t.den) : Int) - 1
  else -(digitCount ((t.den - 1) / t.num) : Int)

/-- What a quarter of a unit of the significand weighs against `10 ^ exponent`, as a numerator. -/
def quarterWeight (exponent : Int) : Nat :=
  Nat.pow 10 (-exponent).toNat <<< (t.exponent - 2).toNat

/-- What `10 ^ exponent` weighs against a quarter of a unit of the significand, as a numerator. -/
def gridWeight (exponent : Int) : Nat :=
  Nat.pow 10 exponent.toNat <<< (2 - t.exponent).toNat

/-- **Reads back.** Whether a decimal rounds to the value. -/
def contains (c : Candidate) : Bool :=
  let place := c.digits * t.gridWeight c.exponent
  let low := t.lowQuarters * t.quarterWeight c.exponent
  let high := t.highQuarters * t.quarterWeight c.exponent
  -- ties go to the even significand, so it also has the midpoints
  if t.significand % 2 = 0 then low ≤ place && place ≤ high else low < place && place < high

/-- The greatest decimal on the grid `10 ^ exponent` that is not above the value. -/
def below (exponent : Int) : Candidate :=
  ⟨4 * t.significand * t.quarterWeight exponent / t.gridWeight exponent, exponent⟩

/-- The decimal after it on the same grid. -/
def above (exponent : Int) : Candidate :=
  ⟨(t.below exponent).digits + 1, exponent⟩

/-- Whether the value is nearer to its lower neighbour on the grid. Halfway the upper one is
taken. -/
def nearerBelow (exponent : Int) : Bool :=
  2 * (4 * t.significand * t.quarterWeight exponent) <
    (2 * (t.below exponent).digits + 1) * t.gridWeight exponent

/-- The neighbour on the grid that rounds to the value, if one does, and the nearer if both do. -/
def onGrid? (exponent : Int) : Option Candidate :=
  match t.contains (t.below exponent), t.contains (t.above exponent) with
  -- both neighbours read back, so the nearer one is taken
  | true, true => some (if t.nearerBelow exponent then t.below exponent else t.above exponent)
  | true, false => some (t.below exponent)
  | false, true => some (t.above exponent)
  | false, false => none

/-- The answer of the first grid that has one, trying `more + 1` grids from `exponent` downwards. -/
def firstGrid (exponent : Int) : (more : Nat) → Candidate
  | 0 => (t.onGrid? exponent).getD (t.below exponent)
  | more + 1 => (t.onGrid? exponent).getD (firstGrid (exponent - 1) more)

/-- **Shortest decimal** that rounds to the value. Seventeen digits tell all values of an eight-byte
format apart. -/
def shortest : Candidate :=
  t.firstGrid t.leadingExponent 16

/-- What a grid answers rounds to the value. -/
theorem contains_of_onGrid? {exponent : Int} {c : Candidate} (h : t.onGrid? exponent = some c) :
    t.contains c = true := by
  unfold onGrid? at h
  split at h
  · next hb ha =>
    split at h <;> cases h
    · exact hb
    · exact ha
  · next hb _ => cases h; exact hb
  · next _ ha => cases h; exact ha
  · cases h

/-- The first grid with an answer decides, and without one the last grid that is tried. -/
theorem contains_firstGrid (exponent : Int) (more : Nat) :
    t.contains (t.firstGrid exponent more) = true ∨
      t.firstGrid exponent more = t.below (exponent - more) := by
  induction more generalizing exponent with
  | zero =>
    unfold firstGrid
    cases h : t.onGrid? exponent with
    | none => exact Or.inr (by simp)
    | some c => exact Or.inl (t.contains_of_onGrid? h)
  | succ more ih =>
    unfold firstGrid
    cases h : t.onGrid? exponent with
    | none =>
      -- this grid has no answer, so the next finer one decides
      rcases ih (exponent - 1) with hc | hb
      · exact Or.inl hc
      · refine Or.inr (hb.trans ?_)
        congr 1
        omega
    | some c => exact Or.inl (t.contains_of_onGrid? h)

/-- The answer rounds to the value, or has the greatest number of digits that is tried. -/
theorem shortest_contains :
    t.contains t.shortest = true ∨ t.shortest = t.below (t.leadingExponent - 16) :=
  t.contains_firstGrid _ _

end Target

/-- The decimal without trailing zeros, of which at most `most` are dropped. -/
def stripZeros : (most : Nat) → Candidate → Candidate
  | 0, c => c
  | most + 1, c =>
    if c.digits % 10 = 0 then stripZeros most ⟨c.digits / 10, c.exponent + 1⟩ else c

/-- Dropping trailing zeros keeps the value, and only lets the exponent grow. -/
theorem stripZeros_value (most : Nat) (c : Candidate) :
    ∃ k : Nat, (stripZeros most c).exponent = c.exponent + k ∧
      c.digits = (stripZeros most c).digits * Nat.pow 10 k := by
  induction most generalizing c with
  | zero => exact ⟨0, by simp [stripZeros]⟩
  | succ most ih =>
    unfold stripZeros
    split
    · next h =>
      -- one zero fewer, and then `k` more
      obtain ⟨k, hexp, hdig⟩ := ih ⟨c.digits / 10, c.exponent + 1⟩
      refine ⟨k + 1, ?_, ?_⟩
      · rw [hexp]
        simp only
        omega
      · simp only at hdig
        show c.digits = _ * (Nat.pow 10 k * 10)
        rw [← Nat.mul_assoc, ← hdig]
        omega
    · exact ⟨0, by simp⟩

end SymVec.Decimal

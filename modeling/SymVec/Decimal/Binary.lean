/-!
# Binary floating-point formats

A floating-point format has a number of significand bits and a number of exponent bits. Its values
are kept as bit patterns, and decoded into a sign, a significand and a power of two.

* `Binary.Format.isSpecial_iff` — a pattern is a NaN or an infinity exactly when its exponent bits
  are all ones;
* `Binary.Format.nearest` — the pattern of the value nearest to a fraction, a tie going to the even
  significand;
* `Binary.roundHalfEven_near` — rounding a fraction stays within one half.
-/

namespace SymVec.Binary

/-- A format: its significand bits, counting the one that is not stored, and its exponent bits. -/
structure Format where
  precision : Nat
  exponentBits : Nat
  deriving DecidableEq, Repr

/-- The format of a four-byte number. -/
def Format.single : Format := ⟨24, 8⟩

/-- The format of an eight-byte number. -/
def Format.double : Format := ⟨53, 11⟩

/-- What a bit pattern stands for. A finite value is `significand * 2 ^ exponent`, with its sign. -/
inductive Value where
  | nan (negative : Bool)
  | infinite (negative : Bool)
  | finite (negative : Bool) (significand : Nat) (exponent : Int)
  deriving DecidableEq, Repr

/-- **Half to even.** The integer nearest to `num / den`; of two equally near, the even one. -/
def roundHalfEven (num den : Nat) : Nat :=
  if den < 2 * (num % den) ∨ (2 * (num % den) = den ∧ num / den % 2 = 1) then num / den + 1
  else num / den

/-- The rounded fraction is within one half of the exact one. -/
theorem roundHalfEven_near (num den : Nat) (h : 0 < den) :
    2 * num ≤ (2 * roundHalfEven num den + 1) * den ∧
      2 * roundHalfEven num den * den ≤ 2 * num + den := by
  have hdiv := Nat.div_add_mod num den
  have hmod := Nat.mod_lt num h
  unfold roundHalfEven
  split
  case isTrue hup =>
    -- the remainder is at least a half
    have : den ≤ 2 * (num % den) := by
      rcases hup with h | h
      · exact Nat.le_of_lt h
      · exact Nat.le_of_eq h.1.symm
    have expand : (2 * (num / den + 1) + 1) * den = 2 * (den * (num / den)) + 3 * den := by
      rw [Nat.mul_comm den]
      simp only [Nat.add_mul, Nat.mul_add, Nat.mul_assoc]
      omega
    have expand' : 2 * (num / den + 1) * den = 2 * (den * (num / den)) + 2 * den := by
      rw [Nat.mul_comm den]
      simp only [Nat.add_mul, Nat.mul_add, Nat.mul_assoc]
      omega
    rw [expand, expand']
    omega
  case isFalse hdown =>
    -- the remainder is at most a half
    have : 2 * (num % den) ≤ den := by
      rcases Nat.lt_or_ge den (2 * (num % den)) with h | h
      · exact absurd (Or.inl h) hdown
      · exact h
    have expand : (2 * (num / den) + 1) * den = 2 * (den * (num / den)) + den := by
      rw [Nat.mul_comm den]
      simp only [Nat.add_mul, Nat.mul_assoc]
      omega
    have expand' : 2 * (num / den) * den = 2 * (den * (num / den)) := by
      rw [Nat.mul_comm den, Nat.mul_assoc]
    rw [expand, expand']
    omega

namespace Format

variable (f : Format)

/-- The bits of the significand that are stored. -/
def fractionBits : Nat := f.precision - 1

/-- The exponent bits when they are all ones. -/
def specialExponent : Nat := 1 <<< f.exponentBits - 1

/-- The exponent of the least positive value. -/
def leastExponent : Int := 2 - (1 <<< (f.exponentBits - 1) : Nat) - f.fractionBits

/-- The magnitude bits of infinity. -/
def infinity : Nat := f.specialExponent <<< f.fractionBits

/-- The bit of the sign. -/
def signBit : Nat := 1 <<< (f.fractionBits + f.exponentBits)

/-- The magnitude bits of the usual pattern that is no number. -/
def quietNan : Nat := f.infinity + 1 <<< (f.fractionBits - 1)

/-- The exponent bits of a pattern. -/
def exponentField (bits : Nat) : Nat := bits >>> f.fractionBits % 1 <<< f.exponentBits

/-- The stored significand bits of a pattern. -/
def fractionField (bits : Nat) : Nat := bits % 1 <<< f.fractionBits

/-- Whether the sign bit of a pattern is set. -/
def isNegative (bits : Nat) : Bool := bits / f.signBit % 2 = 1

/-- **Decoding.** Exponent bits of all ones stand for the infinities and for what is no number;
those of all zeros leave out the leading one of the significand. -/
def decode (bits : Nat) : Value :=
  let negative := f.isNegative bits
  let fraction := f.fractionField bits
  let exponent := f.exponentField bits
  if exponent = f.specialExponent then
    if fraction = 0 then .infinite negative else .nan negative
  else if exponent = 0 then .finite negative fraction f.leastExponent
  else .finite negative (1 <<< f.fractionBits + fraction) (f.leastExponent + (exponent - 1 : Nat))

/-- Whether a pattern is no finite number. -/
def isSpecial (bits : Nat) : Bool :=
  match f.decode bits with
  | .finite _ _ _ => false
  | _ => true

/-- A pattern is a NaN or an infinity exactly when its exponent bits are all ones. -/
theorem isSpecial_iff (bits : Nat) :
    f.isSpecial bits = true ↔ f.exponentField bits = f.specialExponent := by
  unfold isSpecial decode
  by_cases h : f.exponentField bits = f.specialExponent
  · -- all ones, and the fraction tells which of the two it is
    by_cases h0 : f.fractionField bits = 0 <;> simp [h, h0]
  · by_cases h0 : f.exponentField bits = 0
    · have : ¬ 0 = f.specialExponent := h0 ▸ h
      simp [h0, this]
    · simp [h, h0]

/-- The exponent of the grid on which values near `num / den` lie. -/
def gridExponent (num den : Nat) : Int :=
  -- the logarithms give the leading bit up to one place
  let estimate : Int := (num.log2 : Int) - den.log2
  let leading := if den <<< estimate.toNat ≤ num <<< (-estimate).toNat then estimate
    else estimate - 1
  -- below the least normal value the grid gets no finer
  max f.leastExponent (leading - f.fractionBits)

/-- **Nearest value.** The magnitude bits of the value nearest to `num / den`, a tie going to the
even significand, and infinity beyond the greatest finite value. -/
def nearest (num den : Nat) : Nat :=
  if num = 0 then 0
  else
    let exponent := f.gridExponent num den
    let significand := roundHalfEven (num <<< (-exponent).toNat) (den <<< exponent.toNat)
    -- a significand rounded up to the next power of two carries into the exponent bits
    min f.infinity ((exponent - f.leastExponent).toNat <<< f.fractionBits + significand)

/-- The magnitude bits with a sign. -/
def withSign (negative : Bool) (magnitude : Nat) : Nat :=
  if negative then f.signBit + magnitude else magnitude

/-- The pattern in this format of the value nearest to a finite value. -/
def ofFinite (negative : Bool) (significand : Nat) (exponent : Int) : Nat :=
  f.withSign negative
    (f.nearest (significand <<< exponent.toNat) (1 <<< (-exponent).toNat))

/-- The value of a pattern on the scale of magnitude bits, which grow with the magnitude. -/
def orderKey (bits : Nat) : Int :=
  -- magnitude bits grow with the value, also from one exponent to the next
  let magnitude : Int := (bits % f.signBit : Nat)
  if f.isNegative bits then -magnitude else magnitude

/-- **Order of values.** A pattern that is no number is neither below, above nor equal to any. The
two zeros are equal. -/
def compare? (a b : Nat) : Option Ordering :=
  match f.decode a, f.decode b with
  | .nan _, _ => none
  | _, .nan _ => none
  | _, _ => some (compare (f.orderKey a) (f.orderKey b))

end Format

end SymVec.Binary

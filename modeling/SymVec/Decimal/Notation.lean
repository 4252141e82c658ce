import SymVec.Decimal.Shortest

/-!
# Decimal notation

How a decimal is laid out: positionally while its leading digit stands in a range of places, and
otherwise as a first digit, the digits after a point if there are more, and the power of ten.
-/

namespace SymVec.Decimal

/-- The places in which the leading digit may stand in positional notation. -/
structure Layout where
  leastPlace : Int
  greatestPlace : Int
  deriving DecidableEq, Repr

namespace Layout

/-- The digits around a point, with at least one on each side. -/
def positional (digits : List Char) (exponent : Int) : List Char :=
  let whole := (digits.length + exponent).toNat
  -- the point stands behind all digits, between them, or before them
  if 0 ≤ exponent then digits ++ List.replicate exponent.toNat '0' ++ ['.', '0']
  else if 0 < whole then digits.take whole ++ '.' :: digits.drop whole
  else '0' :: '.' :: List.replicate (-exponent - digits.length).toNat '0' ++ digits

/-- The first digit, the others after a point, and the power of ten of the first. -/
def scientific (digits : List Char) (place : Int) : List Char :=
  let rest := digits.drop 1
  digits.take 1 ++ (if rest.isEmpty then [] else '.' :: rest) ++ 'e' :: (toString place).toList

/-- The text of a positive decimal without trailing zeros. -/
def write (layout : Layout) (c : Candidate) : List Char :=
  let digits := Nat.toDigits 10 c.digits
  -- the power of ten of the first digit
  let place := c.exponent + digits.length - 1
  if layout.leastPlace ≤ place ∧ place ≤ layout.greatestPlace then positional digits c.exponent
  else scientific digits place

example : positional ['1', '2'] 1 = "120.0".toList := by decide

example : positional ['1', '2', '5'] (-2) = "1.25".toList := by decide

example : positional ['5'] (-3) = "0.005".toList := by decide

example : scientific ['1', '5'] (-7) = "1.5e-7".toList := by decide

end Layout

end SymVec.Decimal

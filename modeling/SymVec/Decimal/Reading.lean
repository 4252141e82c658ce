import SymVec.Decimal.Shortest

/-!
# Reading decimals

A decimal literal is an optional sign followed by a word for infinity or for what is no number, or
by digits with an optional point among them and an optional power of ten. It is read as the nearest
value of a floating-point format, a tie going to the even significand.

* `Decimal.foldl_digits` — digits behind a number move it up by their places and add their value;
* `Decimal.readNumber?` — digits and a power of ten, as they are written;
* `Decimal.read?` — the nearest value of a format.
-/

namespace SymVec.Decimal

/-- The number written by decimal digits. -/
def digitsValue (digits : List Char) : Nat :=
  digits.foldl (fun n c => 10 * n + (c.toNat - '0'.toNat)) 0

/-- Digits behind a number move it up by as many places and add their value. -/
theorem foldl_digits (digits : List Char) (n : Nat) :
    digits.foldl (fun n c => 10 * n + (c.toNat - '0'.toNat)) n =
      n * Nat.pow 10 digits.length + digitsValue digits := by
  induction digits generalizing n with
  | nil => simp [digitsValue]
  | cons c rest ih =>
    -- the first digit counts as many powers of ten as there are digits behind it
    have first : digitsValue (c :: rest) =
        (c.toNat - '0'.toNat) * Nat.pow 10 rest.length + digitsValue rest := by
      unfold digitsValue
      rw [List.foldl_cons, ih]
      simp [digitsValue]
    have moved : Nat.pow 10 (rest.length + 1) = Nat.pow 10 rest.length * 10 := rfl
    rw [List.foldl_cons, ih, first, List.length_cons, moved, Nat.add_mul, Nat.mul_comm 10 n,
      Nat.mul_assoc, Nat.mul_comm 10, Nat.add_assoc]

/-- A leading sign, and the rest. -/
def splitSign : List Char → Bool × List Char
  | '-' :: rest => (true, rest)
  | '+' :: rest => (false, rest)
  | text => (false, text)

/-- A decimal without its sign: its digits as a number, and the power of ten that scales it. -/
def readNumber? (text : List Char) : Option (Nat × Int) :=
  let whole := text.takeWhile Char.isDigit
  let afterWhole := text.dropWhile Char.isDigit
  let (fraction, tail) :=
    match afterWhole with
    | '.' :: rest => (rest.takeWhile Char.isDigit, rest.dropWhile Char.isDigit)
    | rest => ([], rest)
  -- a point alone is no number
  if whole.isEmpty && fraction.isEmpty then none
  else
    let digits := digitsValue (whole ++ fraction)
    match tail with
    -- the point is moved behind the last digit
    | [] => some (digits, -fraction.length)
    | mark :: rest =>
      if mark = 'e' ∨ mark = 'E' then
        let (negative, power) := splitSign rest
        if power.isEmpty || !power.all Char.isDigit then none
        else
          let size : Int := digitsValue power
          some (digits, (if negative then -size else size) - fraction.length)
      else none

/-- The magnitude bits nearest to `digits * 10 ^ exponent`. Beyond as many places as the format has
exponents, every value is infinite or zero. -/
def nearestMagnitude (f : Binary.Format) (digits : Nat) (exponent : Int) : Nat :=
  let places := Target.digitCount digits + exponent
  let reach : Int := (1 <<< f.exponentBits : Nat)
  -- so far off no grid point is nearer, and the powers of ten would be huge
  if digits = 0 ∨ places < -reach then 0
  else if reach < places then f.infinity
  else f.nearest (digits * Nat.pow 10 exponent.toNat) (Nat.pow 10 (-exponent).toNat)

/-- **Reading a decimal** as a bit pattern of the format. -/
def read? (f : Binary.Format) (text : List Char) : Option Nat :=
  let (negative, body) := splitSign text
  match readNumber? body with
  | some (digits, exponent) => some (f.withSign negative (nearestMagnitude f digits exponent))
  | none =>
    -- names are read in any case of their letters
    match String.ofList (body.map Char.toLower) with
    | "inf" | "infinity" => some (f.withSign negative f.infinity)
    | "nan" => some (f.withSign negative f.quietNan)
    | _ => none

end SymVec.Decimal

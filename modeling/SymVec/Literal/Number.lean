import SymVec.Decimal.Notation

/-!
# Number literals

Integers carry the suffix of the type they are declared with. The least 64-bit integer cannot be
written as a negated constant of a suffixed type, since the constant itself would be out of range,
so it is written as a difference. Floating-point numbers are written by their shortest decimal.

* `Literal.suffix_mem` — the suffixes that occur;
* `Literal.signed_of_ne` — every other integer is its decimal followed by the suffix.
-/

namespace SymVec.Literal

/-- The suffix of an integer literal of the named type. -/
def suffix : String → String
  | "long" | "long int" | "int64_t" | "ssize_t" | "intptr_t" => "L"
  | "long long" | "long long int" => "LL"
  | "unsigned int" | "unsigned" | "uint32_t" => "U"
  | "unsigned long" | "unsigned long int" | "uint64_t" | "size_t" | "uintptr_t"
  | "std::uintptr_t" => "UL"
  | "unsigned long long" | "unsigned long long int" => "ULL"
  | _ => ""

/-- These are all suffixes. -/
theorem suffix_mem (type : String) : suffix type ∈ ["", "L", "LL", "U", "UL", "ULL"] := by
  unfold suffix
  split <;> simp

/-- The least signed integer of 64 bits. -/
def leastInteger : Int := -0x8000000000000000

/-- **Signed integer** of the named type. -/
def signed (value : Int) (type : String) : String :=
  -- all signed types of 64 bits have a suffix, so no other type has this value
  if value = leastInteger ∧ suffix type ≠ "" then
    "(-9223372036854775807" ++ suffix type ++ " - 1)"
  else toString value ++ suffix type

/-- **Unsigned integer** of the named type. -/
def unsigned (value : Nat) (type : String) : String :=
  toString value ++ suffix type

/-- Every integer but the least is its decimal and the suffix. -/
theorem signed_of_ne {value : Int} (h : value ≠ leastInteger) (type : String) :
    signed value type = toString value ++ suffix type := by
  simp [signed, h]

/-- Truth value. -/
def boolean (value : Bool) : String := if value then "true" else "false"

/-- Positional notation holds while the leading digit stands between the fourth place after the
point and the sixteenth before it. -/
def floatLayout : Decimal.Layout := ⟨-4, 15⟩

/-- A finite number: its sign, and the shortest decimal that reads back. -/
def finite (format : Binary.Format) (negative : Bool) (significand : Nat) (exponent : Int) :
    String :=
  let sign := if negative then "-" else ""
  -- zero has no leading digit, from which the shortest decimal would be found
  if significand = 0 then sign ++ "0.0"
  else
    let shortest := Decimal.Target.shortest ⟨format, significand, exponent⟩
    sign ++ String.ofList (floatLayout.write (Decimal.stripZeros 17 shortest))

/-- **Floating-point number** by its bit pattern. What is no finite number is written by the names
of `<math.h>`. -/
def floating (format : Binary.Format) (bits : Nat) : String :=
  match format.decode bits with
  | .nan negative => if negative then "-NAN" else "NAN"
  | .infinite negative => if negative then "-INFINITY" else "INFINITY"
  | .finite negative significand exponent => finite format negative significand exponent

/-- **Narrowed floating-point number.** An eight-byte number written as the nearest four-byte one. A
finite number beyond all of these narrows to an infinity, which then has its short name. -/
def narrowed (bits : Nat) : String :=
  match Binary.Format.double.decode bits with
  | .finite negative significand exponent =>
    match Binary.Format.single.decode
        (Binary.Format.single.ofFinite negative significand exponent) with
    | .finite negative significand exponent => finite .single negative significand exponent
    -- beyond the greatest four-byte number, and not named as in `<math.h>`
    | _ => if negative then "-inf" else "inf"
  | _ => floating .double bits

/-- Whether a literal names what is no finite number. -/
def isSpecial (literal : String) : Bool :=
  ["NAN", "-NAN", "INFINITY", "-INFINITY"].contains literal

end SymVec.Literal

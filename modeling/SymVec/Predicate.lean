import SymVec.DecodeError
import SymVec.Literal.Character
import SymVec.Literal.Number
import SymVec.Text.Blank
import SymVec.Text.Affix
import SymVec.Text.Integer

/-!
# Predicates on returned values

Test cases can be selected by comparing the literal of what the function returned with an expected
value. The comparison is made as numbers, truth values or text, according to a *validation*;
integers are read without their suffix.

* `Comparison.ofSymbol?_symbol` — each comparison is read back from its symbol;
* `Predicate.make_error` — a predicate that cannot be made is a bad configuration.
-/

namespace SymVec

/-! ### Comparisons -/

/-- The comparisons of C. -/
inductive Comparison where
  | equal
  | different
  | less
  | greater
  | atMost
  | atLeast
  deriving DecidableEq, Repr

namespace Comparison

/-- The operator of C. -/
def symbol : Comparison → String
  | equal => "=="
  | different => "!="
  | less => "<"
  | greater => ">"
  | atMost => "<="
  | atLeast => ">="

/-- All comparisons. -/
def all : List Comparison := [equal, different, less, greater, atMost, atLeast]

/-- The comparison with the given operator. -/
def ofSymbol? (text : String) : Option Comparison := all.find? fun c => c.symbol = text

/-- Whether the comparison holds of values in the given order. Values without an order differ. -/
def holds (c : Comparison) : Option Ordering → Bool
  | none => c = different
  | some order =>
    match c with
    | equal => order = .eq
    | different => order ≠ .eq
    | less => order = .lt
    | greater => order = .gt
    | atMost => order ≠ .gt
    | atLeast => order ≠ .lt

/-- Each comparison is read back from its symbol. -/
theorem ofSymbol?_symbol (c : Comparison) : ofSymbol? c.symbol = some c := by
  cases c <;> decide

end Comparison

/-! ### Validations -/

/-- The bits of an integer validation. -/
inductive Width where
  | w8
  | w16
  | w32
  | w64
  deriving DecidableEq, Repr

/-- The number of bits. -/
def Width.bits : Width → Nat
  | .w8 => 8
  | .w16 => 16
  | .w32 => 32
  | .w64 => 64

/-- As what values are compared. -/
inductive Validation where
  | signed (width : Width)
  | unsigned (width : Width)
  | boolean
  | character
  | float
  | string
  deriving DecidableEq, Repr

namespace Validation

/-- All validations. -/
def all : List Validation :=
  [.signed .w8, .signed .w16, .signed .w32, .signed .w64, .unsigned .w8, .unsigned .w16,
    .unsigned .w32, .unsigned .w64, .boolean, .character, .float, .string]

/-- The name of a validation. -/
def name : Validation → String
  | signed width => s!"int{width.bits}"
  | unsigned width => s!"uint{width.bits}"
  | boolean => "bool"
  | character => "char"
  | float => "float"
  | string => "string"

/-- The name as it stands in error texts. -/
def title : Validation → String
  | signed width => s!"Int{width.bits}"
  | unsigned width => s!"Uint{width.bits}"
  | boolean => "Bool"
  | character => "Char"
  | float => "Float"
  | string => "String"

/-- The other name of an integer validation: that of the C type. -/
def typeName : Validation → String
  | signed width => s!"int{width.bits}_t"
  | unsigned width => s!"uint{width.bits}_t"
  | other => other.name

/-- The validation of the given name, which may be that of the C type. -/
def ofName? (text : String) : Option Validation :=
  all.find? fun v => v.name = text || v.typeName = text

/-- Whether an integer is a value of the validation. Other validations have no limits. -/
def inRange : Validation → Int → Bool
  | signed width, n =>
    -- one of the bits is the sign
    let half : Nat := 1 <<< (width.bits - 1)
    decide (-(half : Int) ≤ n ∧ n < half)
  | unsigned width, n => decide (0 ≤ n ∧ n < (1 <<< width.bits : Nat))
  | _, _ => true

end Validation

/-! ### Values -/

/-- A value in the form in which it is compared. -/
inductive Comparable where
  | integer (value : Int)
  | boolean (value : Bool)
  /-- A four-byte floating-point number by its bit pattern. -/
  | float (bits : Nat)
  | text (value : String)
  deriving DecidableEq, Repr

namespace Comparable

/-- The order of two values of one kind, if they have one. -/
def order? : Comparable → Comparable → Option Ordering
  | integer a, integer b => some (compare a b)
  | boolean a, boolean b => some (compare a b)
  | float a, float b => Binary.Format.single.compare? a b
  | text a, text b => some (compare a b)
  | _, _ => none

/-- A text without blanks around it and without the letters of an integer suffix at its end. -/
def unsuffixed (text : List Char) : List Char :=
  Text.dropEndWhile (fun c => ['u', 'U', 'l', 'L'].contains c) (Text.trim text)

/-- Whether a text has the form in which the least 64-bit integer is written. -/
def isLeastForm (text : List Char) : Bool :=
  "(-9223372036854775807".toList.isPrefixOf text && "- 1)".toList.isSuffixOf text

/-- A signed integer of 64 bits. -/
def readSigned? (literal : String) : Option Int :=
  let trimmed := Text.trim literal.toList
  -- the least integer has no plain decimal
  if isLeastForm trimmed then some Literal.leastInteger
  else
    (Text.readInteger? (unsuffixed trimmed)).filter fun n =>
      Validation.inRange (.signed .w64) n

/-- An unsigned integer of 64 bits. -/
def readUnsigned? (literal : String) : Option Int :=
  ((Text.readNatural? (unsuffixed literal.toList)).map Int.ofNat).filter fun n =>
    Validation.inRange (.unsigned .w64) n

/-- A truth value. -/
def readBoolean? (literal : String) : Option Bool :=
  let trimmed := Text.trim literal.toList
  if trimmed = "true".toList then some true
  else if trimmed = "false".toList then some false
  else none

/-- A floating-point number, by its name or as a decimal. -/
def readFloat? (literal : String) : Option Nat :=
  let trimmed := Text.trim literal.toList
  let f := Binary.Format.single
  -- the names that literals have; others are read with the decimals
  if trimmed = "NAN".toList then some f.quietNan
  else if trimmed = "-NAN".toList then
    some (f.withSign true f.quietNan)
  else if trimmed = "INFINITY".toList then some f.infinity
  else if trimmed = "-INFINITY".toList then some (f.withSign true f.infinity)
  else Decimal.read? f (Text.dropEndWhile (fun c => c = 'f' || c = 'F') trimmed)

/-- **Reading** of a literal for comparison. -/
def read? (literal : String) : Validation → Option Comparable
  | .signed _ => (readSigned? literal).map .integer
  | .unsigned _ => (readUnsigned? literal).map .integer
  | .boolean => (readBoolean? literal).map .boolean
  | .float => (readFloat? literal).map .float
  -- the text is compared as it stands, with its quotes and escapes
  | .character | .string => some (.text literal)

end Comparable

/-! ### Predicates -/

/-- A comparison with an expected value that can be read. -/
structure Predicate where
  comparison : Comparison
  /-- The expected value as it was given. -/
  expected : String
  validation : Validation
  value : Comparable
  deriving DecidableEq, Repr

namespace Predicate

/-- The expected value with the quotes of a literal. -/
def quoted (expected : String) : Validation → String
  | .character => s!"'{expected}'"
  | .string => s!"\"{expected}\""
  | _ => expected

/-- Whether a value that was read is one of the validation. -/
def fits (v : Validation) : Comparable → Bool
  | .integer n => v.inRange n
  | _ => true

/-- The predicate of an expected value, which must be a value of the validation. -/
def ofParts (comparison : Comparison) (expected : String) (validation : Validation) :
    Except DecodeError Predicate :=
  -- the expected value is read in the same form as a decoded literal
  match Comparable.read? (quoted expected validation) validation with
  | none =>
    .error (.configuration s!"expected value {expected} is not a valid {validation.title}")
  | some value =>
    if fits validation value then .ok ⟨comparison, expected, validation, value⟩
    else
      .error
        (.configuration s!"expected value {expected} is out of range for {validation.title}")

/-- **Predicate** from its three texts: an operator, an expected value and a validation. -/
def make (operator expected validation : String) : Except DecodeError Predicate :=
  match Comparison.ofSymbol? operator with
  | none => .error (.configuration s!"wrong predicate: {operator}")
  | some comparison =>
    match Validation.ofName? validation with
    | none => .error (.configuration s!"unsupported validation type: {validation}")
    | some v => ofParts comparison expected v

/-- **Evaluation** on the literal of a value. -/
def holds (p : Predicate) (literal : String) : Except DecodeError Bool :=
  match Comparable.read? literal p.validation with
  | none => .error (.malformed s!"value {literal} is not a valid {p.validation.title}")
  | some actual => .ok (p.comparison.holds (actual.order? p.value))

/-- The literal of the expected value. A character given by one byte is written as its literal. -/
def expectedLiteral (p : Predicate) : String :=
  match p.validation with
  | .character =>
    match p.expected.toList with
    -- a byte that needs an escape gets one here, unlike in the comparison
    | [c] => if c.toNat < 0x80 then Literal.character c.toNat else quoted p.expected .character
    | _ => quoted p.expected .character
  | v => quoted p.expected v

/-- A predicate that cannot be made is a bad configuration. -/
theorem make_error {operator expected validation : String} {e : DecodeError}
    (h : make operator expected validation = .error e) : e.isCaseLocal = false := by
  unfold make at h
  split at h
  · cases h; rfl
  · split at h
    · cases h; rfl
    · unfold ofParts at h
      split at h
      · cases h; rfl
      · split at h
        · cases h
        · cases h; rfl

end Predicate

end SymVec

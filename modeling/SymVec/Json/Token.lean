import SymVec.Decimal.Reading
import SymVec.Json.Basic

/-!
# JSON tokens

A JSON text is cut into marks, strings and words by a machine that takes one character at a time. A
word is a longest run of characters that are neither blank nor a mark nor a quote; it must be a
number or one of `true`, `false` and `null`.

* `Json.Token.number?` — the number that a word writes;
* `Json.Token.Spelled` — a string so far, with a surrogate that waits for its other half;
* `Json.Token.step` — what one character does;
* `Json.Token.ofChars?` — the tokens of a text.
-/

namespace SymVec.Json

/-- A mark or a value without parts. -/
inductive Token where
  | beginObject
  | endObject
  | beginArray
  | endArray
  | colon
  | comma
  /-- A value without parts. -/
  | atom (value : Json)
  deriving Repr

namespace Token

/-! ### Numbers and words -/

/-- The digits at the start of a text, of which there must be one, and the rest. -/
def digits? (text : List Char) : Option (List Char × List Char) :=
  let run := text.takeWhile Char.isDigit
  if run.isEmpty then none else some (run, text.dropWhile Char.isDigit)

/-- Whether a text is an optional fraction followed by an optional exponent. -/
def isFractionAndExponent (text : List Char) : Bool :=
  let afterFraction :=
    match text with
    | '.' :: rest => (digits? rest).map (·.2)
    | rest => some rest
  match afterFraction with
  | none => false
  | some [] => true
  | some (mark :: rest) =>
    if mark = 'e' || mark = 'E' then
      match digits? (Decimal.splitSign rest).2 with
      | some (_, []) => true
      | _ => false
    else false

/-- The number that a word writes. Its integral part has no leading zero unless it is zero. -/
def number? (word : List Char) : Option Json :=
  let (negative, body) :=
    match word with
    | '-' :: rest => (true, rest)
    | rest => (false, rest)
  match digits? body with
  | none => none
  | some (whole, rest) =>
    -- `0` may start a number only as its whole integral part
    if whole.head? = some '0' ∧ whole.length ≠ 1 then none
    else
      let size : Int := Decimal.digitsValue whole
      match rest with
      | [] =>
        -- negative zero is no integer, so it is kept as it is written
        if negative ∧ size = 0 then some (.decimal "-0")
        else some (.integer (if negative then -size else size))
      | rest =>
        if isFractionAndExponent rest then some (.decimal (String.ofList word)) else none

/-- The value that a word stands for. -/
def word? (word : List Char) : Option Json :=
  if word = "true".toList then some (.boolean true)
  else if word = "false".toList then some (.boolean false)
  else if word = "null".toList then some .null
  else number? word

/-! ### Strings -/

/-- The characters of a string so far, the last one first, the first half of a surrogate pair that
waits for its second half, and whether all halves were paired. -/
structure Spelled where
  reversed : List Char := []
  half : Option Nat := none
  paired : Bool := true

namespace Spelled

/-- One more character. A waiting half stays unpaired. -/
def push (s : Spelled) (c : Char) : Spelled :=
  ⟨c :: s.reversed, none, s.paired && s.half.isNone⟩

/-- One more 16-bit unit. -/
def pushUnit (s : Spelled) (unit : Nat) : Spelled :=
  -- a first half waits, and a second half joins the one that waits
  if 0xD800 ≤ unit ∧ unit < 0xDC00 then ⟨s.reversed, some unit, s.paired && s.half.isNone⟩
  else if 0xDC00 ≤ unit ∧ unit < 0xE000 then
    -- a pair of halves stands for one character beyond the first 65536
    match s.half with
    | some high =>
      ⟨Char.ofNat (0x10000 + (high - 0xD800) * 0x400 + (unit - 0xDC00)) :: s.reversed, none,
        s.paired⟩
    | none => ⟨s.reversed, none, false⟩
  else s.push (Char.ofNat unit)

/-- The string, if it is text. -/
def toJson (s : Spelled) : Json :=
  if s.paired && s.half.isNone then .string (String.ofList s.reversed.reverse) else .unreadable

end Spelled

/-- The character for which a letter after a backslash stands. -/
def escaped? : Char → Option Char
  | '"' => some '"'
  | '\\' => some '\\'
  | '/' => some '/'
  | 'b' => some '\x08'
  | 'f' => some '\x0c'
  | 'n' => some '\n'
  | 'r' => some '\r'
  | 't' => some '\t'
  | _ => none

/-- The value of a hexadecimal digit. -/
def hexValue? (c : Char) : Option Nat :=
  if c.isDigit then some (c.toNat - '0'.toNat)
  else if 'a' ≤ c ∧ c ≤ 'f' then some (c.toNat - 'a'.toNat + 10)
  else if 'A' ≤ c ∧ c ≤ 'F' then some (c.toNat - 'A'.toNat + 10)
  else none

/-! ### The machine -/

/-- Where the machine stands in the text. -/
inductive Place where
  | between
  /-- In a word, whose characters so far are held last one first. -/
  | inWord (reversed : List Char)
  | inString (s : Spelled)
  /-- After a backslash. -/
  | inEscape (s : Spelled)
  /-- In a unit, of whose four digits `missing` are still to come. -/
  | inUnit (s : Spelled) (unit missing : Nat)

/-- The tokens found so far, the last one first, and the place in the text. -/
structure State where
  reversed : List Token := []
  place : Place := .between

/-- The mark that a character is. -/
def mark? : Char → Option Token
  | '\x7b' => some .beginObject
  | '\x7d' => some .endObject
  | '[' => some .beginArray
  | ']' => some .endArray
  | ':' => some .colon
  | ',' => some .comma
  | _ => none

/-- The four blanks of JSON. -/
def isBlank (c : Char) : Bool := c = ' ' || c = '\n' || c = '\r' || c = '\t'

/-- A character outside of strings and words. -/
def startToken (reversed : List Token) (c : Char) : State :=
  if isBlank c then ⟨reversed, .between⟩
  else
    match mark? c with
    | some mark => ⟨mark :: reversed, .between⟩
    | none => if c = '"' then ⟨reversed, .inString {}⟩ else ⟨reversed, .inWord [c]⟩

/-- Whether a character ends a word. -/
def endsWord (c : Char) : Bool := isBlank c || (mark? c).isSome || c = '"'

/-- One character. -/
def step (state : State) (c : Char) : Option State :=
  match state.place with
  | .between => some (startToken state.reversed c)
  | .inWord word =>
    if endsWord c then
      -- the word is complete, and the character starts what comes next
      (word? word.reverse).map fun value => startToken (.atom value :: state.reversed) c
    else some ⟨state.reversed, .inWord (c :: word)⟩
  | .inString s =>
    if c = '"' then some ⟨.atom s.toJson :: state.reversed, .between⟩
    else if c = '\\' then some ⟨state.reversed, .inEscape s⟩
    -- control characters must be escaped in a string
    else if c.toNat < 0x20 then none
    else some ⟨state.reversed, .inString (s.push c)⟩
  | .inEscape s =>
    if c = 'u' then some ⟨state.reversed, .inUnit s 0 4⟩
    else (escaped? c).map fun e => ⟨state.reversed, .inString (s.push e)⟩
  | .inUnit s unit missing =>
    (hexValue? c).map fun digit =>
      let unit := 16 * unit + digit
      if missing ≤ 1 then ⟨state.reversed, .inString (s.pushUnit unit)⟩
      else ⟨state.reversed, .inUnit s unit (missing - 1)⟩

/-- The tokens when the text has ended. -/
def finish (state : State) : Option (List Token) :=
  match state.place with
  | .between => some state.reversed.reverse
  | .inWord word =>
    (word? word.reverse).map fun value => (.atom value :: state.reversed).reverse
  -- the text ends within a string
  | _ => none

/-- The characters of a text taken one after another. -/
def advance (state : State) (text : List Char) : Option State := text.foldlM step state

/-- **Tokens** of a text. -/
def ofChars? (text : List Char) : Option (List Token) := (advance {} text).bind finish

end Token

end SymVec.Json

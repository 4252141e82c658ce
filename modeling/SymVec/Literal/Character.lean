/-!
# Character and string literals

Bytes are written as the characters of a C literal: printable ASCII as itself, the characters with a
short escape by it, and every other byte by `\x` and two hexadecimal digits. In C such an escape
takes in all hexadecimal digits that follow, so in a string a byte that is not written as itself is
set off from what comes after by closing the string and opening it again.

* `Literal.spell_of_isPrintable` — a printable byte is written as itself;
* `Literal.spellAll_of_isPrintable` — a run of printable bytes is written as itself.
-/

namespace SymVec.Literal

/-- The bytes with a short escape, each with the letter after the backslash. -/
def escapes : List (UInt8 × Char) :=
  [(0x07, 'a'), (0x08, 'b'), (0x09, 't'), (0x0A, 'n'), (0x0B, 'v'), (0x0C, 'f'), (0x0D, 'r'),
    (0x22, '"'), (0x27, '\''), (0x5C, '\\')]

/-- The letter of the short escape of a byte. -/
def escape? (code : UInt8) : Option Char := escapes.lookup code

/-- Whether a byte is written as itself. -/
def isPrintable (code : UInt8) : Bool :=
  (escape? code).isNone && 0x20 ≤ code && code < 0x7F

/-- The hexadecimal digit of a number below sixteen. -/
def hexDigit (n : Nat) : Char := Nat.digitChar n

/-- **Spelling of a byte** inside a literal. -/
def spell (code : UInt8) : List Char :=
  match escape? code with
  | some letter => ['\\', letter]
  | none =>
    if isPrintable code then [Char.ofNat code.toNat]
    else ['\\', 'x', hexDigit (code.toNat / 16), hexDigit (code.toNat % 16)]

/-- **Spelling of bytes** inside a string literal. -/
def spellAll : List UInt8 → List Char
  | [] => []
  -- nothing comes after the last byte, so nothing has to be set off
  | [code] => spell code
  | code :: next :: rest =>
    -- an escape would take in the digits of the next byte, so the string is closed and opened again
    spell code ++ (if isPrintable code then [] else ['"', '"']) ++ spellAll (next :: rest)

/-- **Character literal.** The code is taken modulo 256. -/
def character (code : Int) : String :=
  String.ofList ('\'' :: spell (UInt8.ofNat (code % 256).toNat) ++ ['\''])

/-- The bytes that a string literal stands for: as many as asked for, or those before the first zero
byte. -/
def stringContent (bytes : List UInt8) : (length : Option Nat) → List UInt8
  | some length => bytes.take length
  | none => bytes.takeWhile (· != 0)

/-- **String literal** of the bytes of a buffer. -/
def string (bytes : List UInt8) (length : Option Nat) : String :=
  String.ofList ('"' :: spellAll (stringContent bytes length) ++ ['"'])

/-- What a list of pairs has under a key stands there together with it. -/
theorem mem_of_lookup {α β : Type} [BEq α] [LawfulBEq α] {a : α} {b : β} {pairs : List (α × β)}
    (h : pairs.lookup a = some b) : (a, b) ∈ pairs := by
  obtain ⟨before, after, rfl, -⟩ := List.lookup_eq_some_iff.1 h
  simp

/-- A byte that is written as itself has no short escape. -/
theorem escape?_eq_none_of_isPrintable {code : UInt8} (h : isPrintable code = true) :
    escape? code = none := by
  simp only [isPrintable, Bool.and_eq_true, Option.isNone_iff_eq_none] at h
  exact h.1.1

/-- A printable byte is written as itself. -/
theorem spell_of_isPrintable {code : UInt8} (h : isPrintable code = true) :
    spell code = [Char.ofNat code.toNat] := by
  simp [spell, escape?_eq_none_of_isPrintable h, h]

/-- A run of printable bytes is written as itself. -/
theorem spellAll_of_isPrintable {bytes : List UInt8} (h : ∀ b ∈ bytes, isPrintable b = true) :
    spellAll bytes = bytes.map fun b => Char.ofNat b.toNat := by
  induction bytes with
  | nil => rfl
  | cons code rest ih =>
    have hcode := h code (by simp)
    cases rest with
    | nil => simp [spellAll, spell_of_isPrintable hcode]
    | cons next rest =>
      have hrest := ih fun b hb => h b (by simp [hb])
      simp [spellAll, spell_of_isPrintable hcode, hcode, hrest]

end SymVec.Literal

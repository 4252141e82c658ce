import SymVec.Literal.Character

/-!
# Reading string literals

How C reads string literals: a character stands for itself, an escape for the character that it
names, and `\x` takes in every hexadecimal digit that follows it, but none beyond the closing quote.
Literals that stand next to each other are read as one, each of them after its escapes.

The literals of this library are read back to the bytes that they were written for. An escape is
never followed by a digit that it could take in: what follows it is a quote, which closes the last
literal or the one before the next byte.

* `Literal.readUnit?_spell` — a spelled byte, whatever follows it in the literal;
* `Literal.readWithin?_spellAll` — spelled bytes, by induction on them;
* `Literal.strings_read_back` — string literals, and so what they have in common.
-/

namespace SymVec.Literal

/-! ### The rules of C -/

/-- The value of a hexadecimal digit. -/
def hexValue? (c : Char) : Option Nat :=
  if '0' ≤ c ∧ c ≤ '9' then some (c.toNat - '0'.toNat)
  else if 'a' ≤ c ∧ c ≤ 'f' then some (c.toNat - 'a'.toNat + 10)
  else if 'A' ≤ c ∧ c ≤ 'F' then some (c.toNat - 'A'.toNat + 10)
  else none

def isHexDigit (c : Char) : Bool := (hexValue? c).isSome

/-- The number that hexadecimal digits write. -/
def hexNumber (digits : List Char) : Nat :=
  digits.foldl (fun n c => 16 * n + (hexValue? c).getD 0) 0

/-- The code of a simple escape, by the character after the backslash. -/
def simpleEscape? : Char → Option Nat
  | 'a' => some 0x07
  | 'b' => some 0x08
  | 't' => some 0x09
  | 'n' => some 0x0A
  | 'v' => some 0x0B
  | 'f' => some 0x0C
  | 'r' => some 0x0D
  | '"' => some 0x22
  | '\'' => some 0x27
  | '\\' => some 0x5C
  | _ => none

/-- Whether a character stands for itself in a literal between quotes of the given kind. -/
def isPlain (quote c : Char) : Bool := ' ' ≤ c && c ≤ '~' && c != quote && c != '\\'

/-- **One character** of a literal: the code that it stands for, and the text after it. -/
def readUnit? (quote : Char) : List Char → Option (Nat × List Char)
  | '\\' :: 'x' :: rest =>
    -- the longest run of digits
    let digits := rest.takeWhile isHexDigit
    if digits = [] then none else some (hexNumber digits, rest.dropWhile isHexDigit)
  | '\\' :: c :: rest => (simpleEscape? c).map fun code => (code, rest)
  | c :: rest => if isPlain quote c then some (c.toNat, rest) else none
  | [] => none

/-- A character takes up some of the text. -/
theorem length_of_readUnit? {quote : Char} {text rest : List Char} {code : Nat}
    (h : readUnit? quote text = some (code, rest)) : rest.length < text.length := by
  unfold readUnit? at h
  split at h
  · next tail =>
    have hdrop : (tail.dropWhile isHexDigit).length ≤ tail.length :=
      (List.dropWhile_sublist isHexDigit).length_le
    dsimp only at h
    split at h
    · cases h
    · cases h
      simp only [List.length_cons]
      omega
  · obtain ⟨code', -, heq⟩ := Option.map_eq_some_iff.1 h
    cases heq
    simp only [List.length_cons]
    omega
  · split at h
    · cases h
      exact Nat.lt_succ_self _
    · cases h
  · cases h

/-- The bytes of string literals next to each other, read from within the first of them. A quote
ends the last one, or is followed by the quote that opens the next one. -/
def readWithin? (text : List Char) : Option (List UInt8) :=
  match text with
  | ['"'] => some []
  | '"' :: '"' :: rest => readWithin? rest
  | text =>
    match _h : readUnit? '"' text with
    | some (code, rest) =>
      if code < 256 then (readWithin? rest).map (UInt8.ofNat code :: ·) else none
    | none => none
termination_by text.length
decreasing_by
  · simp only [List.length_cons]
    omega
  · exact length_of_readUnit? _h

/-- **String literals** next to each other: the bytes that they stand for, if they are well
formed. -/
def readStrings? (text : String) : Option (List UInt8) :=
  match text.toList with
  | '"' :: rest => readWithin? rest
  | _ => none

/-! ### Spelled bytes -/

theorem hexValue?_hexDigit {n : Nat} (h : n < 16) : hexValue? (hexDigit n) = some n := by
  have hall : ∀ n < 16, hexValue? (hexDigit n) = some n := by decide
  exact hall n h

/-- A run that satisfies a condition, before a text that begins otherwise. -/
theorem takeWhile_eq_of_boundary {p : Char → Bool} {run rest : List Char}
    (hrun : ∀ c ∈ run, p c = true) (hrest : ∀ c ∈ rest.head?, p c = false) :
    (run ++ rest).takeWhile p = run ∧ (run ++ rest).dropWhile p = rest := by
  rw [List.takeWhile_append_of_pos hrun, List.dropWhile_append_of_pos hrun]
  cases rest with
  | nil => simp
  | cons c tail => simp [hrest c rfl]

/-- A hexadecimal escape takes in a run of digits that ends where the digits do. -/
theorem readUnit?_hex {quote : Char} {digits rest : List Char} (hne : digits ≠ [])
    (hdigits : ∀ c ∈ digits, isHexDigit c = true)
    (hboundary : ∀ c ∈ rest.head?, isHexDigit c = false) :
    readUnit? quote ('\\' :: 'x' :: (digits ++ rest)) = some (hexNumber digits, rest) := by
  obtain ⟨htake, hdrop⟩ := takeWhile_eq_of_boundary hdigits hboundary
  rw [readUnit?, htake, hdrop, if_neg hne]

/-- A byte that is written as itself stands for itself between quotes of both kinds. -/
theorem isPlain_of_isPrintable {code : UInt8} (h : isPrintable code = true) {quote : Char}
    (hquote : quote = '"' ∨ quote = '\'') :
    (Char.ofNat code.toNat).toNat = code.toNat ∧ isPlain quote (Char.ofNat code.toNat) = true := by
  -- there are only so many bytes, and most are not printable
  have hall : ∀ n < 256, isPrintable (UInt8.ofNat n) = true →
      (Char.ofNat n).toNat = n ∧ isPlain '"' (Char.ofNat n) = true ∧
        isPlain '\'' (Char.ofNat n) = true := by decide +kernel
  have hcode : UInt8.ofNat code.toNat = code := UInt8.ofNat_toNat
  obtain ⟨hsame, hdouble, hsingle⟩ := hall code.toNat code.toNat_lt (by rwa [hcode])
  rcases hquote with rfl | rfl
  · exact ⟨hsame, hdouble⟩
  · exact ⟨hsame, hsingle⟩

/-- **A spelled byte** between quotes of either kind is read back, if no digit follows that an
escape could take in. -/
theorem readUnit?_spell_of_quote {quote : Char} (hquote : quote = '"' ∨ quote = '\'')
    {code : UInt8} {rest : List Char}
    (h : isPrintable code = true ∨ ∀ c ∈ rest.head?, isHexDigit c = false) :
    readUnit? quote (spell code ++ rest) = some (code.toNat, rest) := by
  unfold spell
  split
  · next letter hescape =>
    -- each short escape is a simple escape of C
    have hmem : (code, letter) ∈ escapes := mem_of_lookup hescape
    simp only [escapes, List.mem_cons, Prod.mk.injEq, List.not_mem_nil, or_false] at hmem
    rcases hmem with ⟨rfl, rfl⟩ | ⟨rfl, rfl⟩ | ⟨rfl, rfl⟩ | ⟨rfl, rfl⟩ | ⟨rfl, rfl⟩ | ⟨rfl, rfl⟩ |
      ⟨rfl, rfl⟩ | ⟨rfl, rfl⟩ | ⟨rfl, rfl⟩ | ⟨rfl, rfl⟩ <;> rfl
  · split
    · next hprintable =>
      obtain ⟨hcode, hplain⟩ := isPlain_of_isPrintable hprintable hquote
      -- so it does not begin an escape
      have hslash : Char.ofNat code.toNat ≠ '\\' := by
        intro heq
        rw [heq, isPlain, bne_self_eq_false, Bool.and_false] at hplain
        cases hplain
      rw [List.singleton_append, readUnit?, if_pos hplain, hcode]
      · exact fun tail heq _ => hslash heq
      · exact fun c tail heq _ => hslash heq
    · next hprintable =>
      -- the two digits are the whole run, since no digit follows
      have hboundary : ∀ c ∈ rest.head?, isHexDigit c = false := h.resolve_left hprintable
      have hhigh : hexValue? (hexDigit (code.toNat / 16)) = some (code.toNat / 16) :=
        hexValue?_hexDigit (by have := code.toNat_lt; omega)
      have hlow : hexValue? (hexDigit (code.toNat % 16)) = some (code.toNat % 16) :=
        hexValue?_hexDigit (Nat.mod_lt _ (by decide))
      have hdigits : ∀ c ∈ [hexDigit (code.toNat / 16), hexDigit (code.toNat % 16)],
          isHexDigit c = true := by
        simp [isHexDigit, hhigh, hlow]
      have hnumber : hexNumber [hexDigit (code.toNat / 16), hexDigit (code.toNat % 16)] =
          code.toNat := by
        simp only [hexNumber, List.foldl_cons, List.foldl_nil, hhigh, hlow, Option.getD_some]
        omega
      have hread : readUnit? quote _ = _ := readUnit?_hex (by simp) hdigits hboundary
      rwa [hnumber] at hread

theorem readUnit?_spell {code : UInt8} {rest : List Char}
    (h : isPrintable code = true ∨ ∀ c ∈ rest.head?, isHexDigit c = false) :
    readUnit? '"' (spell code ++ rest) = some (code.toNat, rest) :=
  readUnit?_spell_of_quote (.inl rfl) h

/-- A character that is read puts its byte before the others. -/
theorem readWithin?_of_readUnit? {text rest : List Char} {code : UInt8}
    (h : readUnit? '"' text = some (code.toNat, rest)) :
    readWithin? text = (readWithin? rest).map (code :: ·) := by
  -- a quote is no character of the literal
  have hquote : ∀ tail, text ≠ '"' :: tail := by
    rintro tail rfl
    cases h
  rw [readWithin?]
  · split
    · next code' rest' h' =>
      rw [h] at h'
      cases h'
      rw [if_pos code.toNat_lt, UInt8.ofNat_toNat]
    · next h' =>
      rw [h] at h'
      cases h'
  · exact fun heq => hquote _ heq
  · exact fun tail heq => hquote _ heq

/-- **Spelled bytes** are read back up to the quote that closes them. -/
theorem readWithin?_spellAll (bytes : List UInt8) :
    readWithin? (spellAll bytes ++ ['"']) = some bytes := by
  have hquote : ∀ tail : List Char, ∀ c ∈ ('"' :: tail).head?, isHexDigit c = false := by
    intro tail c hc
    cases hc
    rfl
  -- a literal that is closed after an escape shows the reader a quote, which is no digit
  fun_induction spellAll bytes with
  | case1 => simp [readWithin?]
  | case2 code =>
    rw [readWithin?_of_readUnit? (readUnit?_spell (.inr (hquote [])))]
    simp [readWithin?]
  | case3 code next rest ih =>
    split
    · next hprintable =>
      rw [List.append_nil, List.append_assoc,
        readWithin?_of_readUnit? (readUnit?_spell (.inl hprintable)), ih]
      rfl
    · -- the literal is closed after the escape and opened again
      rw [List.append_assoc, List.append_assoc, List.cons_append, List.singleton_append,
        readWithin?_of_readUnit? (readUnit?_spell (.inr (hquote _))), readWithin?, ih]
      rfl

/-! ### String literals -/

/-- A string literal stands for the bytes that it was written for. -/
theorem readStrings?_string (bytes : List UInt8) (length : Option Nat) :
    readStrings? (string bytes length) = some (stringContent bytes length) := by
  rw [readStrings?, string, String.toList_ofList]
  exact readWithin?_spellAll _

/-- A buffer is what comes before its first zero byte, or there is no zero byte in it. -/
theorem stringContent_none (bytes : List UInt8) :
    0 ∉ stringContent bytes none ∧ (bytes = stringContent bytes none ∨
      ∃ rest, bytes = stringContent bytes none ++ 0 :: rest) := by
  change 0 ∉ bytes.takeWhile (· != 0) ∧ (bytes = bytes.takeWhile (· != 0) ∨
    ∃ rest, bytes = bytes.takeWhile (· != 0) ++ 0 :: rest)
  induction bytes with
  | nil => simp
  | cons b rest ih =>
    -- the content ends at the first byte that is zero
    by_cases hzero : b = 0
    · simp [hzero]
    · obtain ⟨hnone, hrest⟩ := ih
      have hb : (b != 0) = true := by simpa using hzero
      simp only [List.takeWhile_cons, hb, if_true]
      refine ⟨?_, ?_⟩
      · simpa [hnone] using Ne.symm hzero
      · rcases hrest with hrest | ⟨tail, hrest⟩
        · exact .inl (congrArg (b :: ·) hrest)
        · exact .inr ⟨tail, congrArg (b :: ·) hrest⟩

/-- **String literals are read back.** With a length the literal is well formed and stands for that
many bytes of the buffer, or for all of them if there are fewer; without one it stands for the bytes
before the first zero byte. So two literals are the same exactly if they were written for the same
bytes. -/
theorem strings_read_back (bytes : List UInt8) :
    (∀ n, readStrings? (string bytes (some n)) = some (bytes.take (min n bytes.length))) ∧
    (∃ content, readStrings? (string bytes none) = some content ∧ 0 ∉ content ∧
      (bytes = content ∨ ∃ rest, bytes = content ++ 0 :: rest)) ∧
    ∀ bytes' length length', string bytes length = string bytes' length' ↔
      stringContent bytes length = stringContent bytes' length' := by
  refine ⟨fun n => ?_, ⟨_, readStrings?_string bytes none, stringContent_none bytes⟩, ?_⟩
  · rw [readStrings?_string, stringContent, ← List.take_eq_take_min]
  · intro bytes' length length'
    constructor
    · intro heq
      have hread : readStrings? (string bytes length) = readStrings? (string bytes' length') :=
        congrArg readStrings? heq
      rw [readStrings?_string, readStrings?_string] at hread
      exact Option.some.inj hread
    · intro heq
      rw [string, string, heq]

end SymVec.Literal

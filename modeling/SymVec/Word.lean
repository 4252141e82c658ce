/-!
# Machine words

Sizes, offsets, lengths and addresses are unsigned 64-bit machine words. They are kept as natural
numbers, and the operations below say what happens where a word would overflow: the *checked* ones
answer `none`, the *saturating* ones stop at the greatest word.

* `Word.add?_eq_some_iff`, `Word.mul?_eq_some_iff` — a checked operation answers exactly when the
  result is a word, and then with the sum or product of the integers;
* `Word.signed_range` — reading a word as a signed integer of `bits` bits stays in that range.
-/

namespace SymVec.Word

/-- The number of machine words: every word is below it. -/
abbrev limit : Nat := 0x10000000000000000

/-- The greatest machine word. -/
abbrev greatest : Nat := limit - 1

/-- **Checked sum.** Defined when the sum is a word. -/
def add? (a b : Nat) : Option Nat :=
  if a + b < limit then some (a + b) else none

/-- **Checked product.** Defined when the product is a word. -/
def mul? (a b : Nat) : Option Nat :=
  if a * b < limit then some (a * b) else none

/-- **Saturating sum.** The sum, or the greatest word where the sum is larger. -/
def addSaturating (a b : Nat) : Nat :=
  min (a + b) greatest

/-- **Saturating product.** The product, or the greatest word where the product is larger. -/
def mulSaturating (a b : Nat) : Nat :=
  min (a * b) greatest

/-- A checked sum is the sum of the integers, and there is one exactly where that is a word. -/
theorem add?_eq_some_iff {a b c : Nat} : add? a b = some c ↔ a + b < limit ∧ a + b = c := by
  by_cases h : a + b < limit <;> simp [add?, h]

/-- A checked product is the product of the integers, and there is one exactly where that is a word.
-/
theorem mul?_eq_some_iff {a b c : Nat} : mul? a b = some c ↔ a * b < limit ∧ a * b = c := by
  by_cases h : a * b < limit <;> simp [mul?, h]

/-- Saturation only makes a sum smaller. -/
theorem addSaturating_le (a b : Nat) : addSaturating a b ≤ a + b :=
  Nat.min_le_left _ _

/-- A sum that is a word is not cut off. -/
theorem addSaturating_of_lt {a b : Nat} (h : a + b < 0x10000000000000000) :
    addSaturating a b = a + b :=
  Nat.min_eq_left (Nat.le_sub_one_of_lt h)

/-- A product that is a word is not cut off. -/
theorem mulSaturating_of_lt {a b : Nat} (h : a * b < 0x10000000000000000) :
    mulSaturating a b = a * b :=
  Nat.min_eq_left (Nat.le_sub_one_of_lt h)

/-! ### Signed readings -/

/-- **Signed reading.** The low `bits` bits of a word in two's complement. A width of zero, or of a
whole word and more, reads all 64 bits. -/
def toSigned (raw bits : Nat) : Int :=
  if bits = 0 ∨ 64 ≤ bits then Int.bmod raw limit else Int.bmod raw (1 <<< bits)

/-- A signed reading of `bits` bits lies in the range of a two's complement integer of that
width. -/
theorem signed_range (raw bits : Nat) (h : 0 < bits) (h' : bits ≤ 64) :
    -((1 <<< (bits - 1) : Nat) : Int) ≤ toSigned raw bits ∧
      toSigned raw bits < (1 <<< (bits - 1) : Nat) := by
  -- with one bit more than `k` the modulus is even, so the balanced residues are symmetric
  have key : ∀ k : Nat, -((1 <<< k : Nat) : Int) ≤ Int.bmod raw (1 <<< (k + 1)) ∧
      Int.bmod raw (1 <<< (k + 1)) < (1 <<< k : Nat) := by
    intro k
    have hpos : 0 < 1 <<< k := by rw [Nat.one_shiftLeft]; exact Nat.two_pow_pos k
    have hsplit : 1 <<< (k + 1) = 2 * 1 <<< k := Nat.shiftLeft_succ 1 k
    have hne : 0 < 1 <<< (k + 1) := by omega
    have low := @Int.le_bmod raw (1 <<< (k + 1)) hne
    have high := @Int.bmod_lt raw (1 <<< (k + 1)) hne
    omega
  obtain ⟨k, rfl⟩ : ∃ k, bits = k + 1 := ⟨bits - 1, by omega⟩
  rw [Nat.add_sub_cancel]
  unfold toSigned
  split
  · -- a whole word is read modulo the limit, which is the same power of two
    have : k = 63 := by omega
    subst this
    exact key 63
  · exact key k

end SymVec.Word

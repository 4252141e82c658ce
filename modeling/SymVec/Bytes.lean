import SymVec.Word

/-!
# Byte buffers

The contents of an object is a list of bytes, and numbers are stored in it with the low byte first.

* `Bytes.value_append` — the value of two runs is the first plus the second moved up;
* `Bytes.slice?_isSome_iff` — a run of bytes can be read exactly when it ends inside the buffer;
* `Bytes.word_eq_value_mod` — a word is the low 64 bits of the whole run.
-/

namespace SymVec

/-- The contents of an object. -/
abbrev Bytes := List UInt8

namespace Bytes

/-- **Little-endian value.** The number whose base-256 digits are the bytes, lowest first. -/
def value : Bytes → Nat
  | [] => 0
  | b :: rest => b.toNat + 256 * value rest

/-- **Word.** The number stored in the first eight bytes, or in all of them if there are fewer. -/
def word (bytes : Bytes) : Nat :=
  value (bytes.take 8)

/-- **Slice.** The `length` bytes from `offset` on, where the buffer holds all of them. -/
def slice? (bytes : Bytes) (offset length : Nat) : Option Bytes :=
  if offset + length ≤ bytes.length then some ((bytes.drop offset).take length) else none

@[simp]
theorem value_nil : value [] = 0 := rfl

@[simp]
theorem value_cons (b : UInt8) (rest : Bytes) : value (b :: rest) = b.toNat + 256 * value rest :=
  rfl

/-- The second run stands for higher digits, eight bits up for each byte before it. -/
theorem value_append (front back : Bytes) :
    value (front ++ back) = value front + value back <<< (8 * front.length) := by
  induction front with
  | nil => simp
  | cons b rest ih =>
    -- one byte in front moves all others up by eight bits
    have moved : value back <<< (8 * (rest.length + 1)) =
        256 * value back <<< (8 * rest.length) := by
      rw [Nat.mul_add, Nat.mul_one, Nat.shiftLeft_add, Nat.shiftLeft_eq _ 8]
      omega
    simp only [List.cons_append, value_cons, ih, List.length_cons, moved]
    omega

/-- A run of bytes is below the number that has one bit more than they do. -/
theorem value_lt (bytes : Bytes) : value bytes < 1 <<< (8 * bytes.length) := by
  induction bytes with
  | nil => simp
  | cons b rest ih =>
    -- the first byte is the lowest digit, and the others count 256 times as much
    have hb : b.toNat < 256 := b.toNat_lt
    have moved : 1 <<< (8 * (rest.length + 1)) = 256 * 1 <<< (8 * rest.length) := by
      rw [Nat.mul_add, Nat.mul_one, Nat.shiftLeft_add, Nat.shiftLeft_eq _ 8]
      omega
    rw [value_cons, List.length_cons, moved]
    omega

/-- A run of bytes can be read exactly when it ends inside the buffer. -/
theorem slice?_isSome_iff {bytes : Bytes} {offset length : Nat} :
    (bytes.slice? offset length).isSome ↔ offset + length ≤ bytes.length := by
  by_cases h : offset + length ≤ bytes.length <;> simp [slice?, h]

/-- A word is the low 64 bits of the whole run, however long the run is. -/
theorem word_eq_value_mod (bytes : Bytes) : word bytes = value bytes % Word.limit := by
  by_cases h : bytes.length ≤ 8
  · -- all bytes are taken, and they fill no more than the 64 bits
    have hlt := value_lt bytes
    have hle : 1 <<< (8 * bytes.length) ≤ 1 <<< 64 := by
      rw [Nat.one_shiftLeft, Nat.one_shiftLeft]
      exact Nat.pow_le_pow_right (by omega) (by omega)
    rw [word, List.take_of_length_le h]
    exact (Nat.mod_eq_of_lt (Nat.lt_of_lt_of_le hlt hle)).symm
  · -- the ninth byte and those behind it add a multiple of the limit
    have hlen : (bytes.take 8).length = 8 := by rw [List.length_take]; omega
    have low : value (bytes.take 8) < Word.limit := by
      have hlt := value_lt (bytes.take 8)
      rwa [hlen] at hlt
    have split : value bytes = value (bytes.take 8) + value (bytes.drop 8) <<< 64 := by
      have joined := value_append (bytes.take 8) (bytes.drop 8)
      rwa [List.take_append_drop, hlen] at joined
    rw [word, split, Nat.shiftLeft_eq]
    unfold Word.limit at *
    omega

end Bytes

end SymVec

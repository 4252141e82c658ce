import SymVec.AddressTable
import SymVec.Bytes
import SymVec.Registry.Basic
import SymVec.Traced

/-!
# Decoders

What the decoding of a buffer depends on besides the buffer: the known layouts, the limits, the
names of addresses, and the function under test, after which stubs are named.

* `Decoder` — all of this together;
* `readBytes` — a read of bytes, the only way in which decoding touches a buffer;
* `outcome_readBytes` — it has the bytes it asks for if it ends within the buffer.
-/

namespace SymVec

/-- The limits of decoding. -/
structure Config where
  /-- How deep records may be nested in each other. -/
  maxDepth : Nat := 32
  /-- How many bytes symbolic standard input can hold. -/
  stdinCapacity : Nat := 64
  deriving DecidableEq, Repr

/-- What the decoding of a buffer depends on. -/
structure Decoder where
  registry : Registry := {}
  config : Config := {}
  /-- The objects that pointers can lead to. -/
  table : AddressTable := ∅
  /-- The function under test. -/
  method : String
  /-- The class of the function under test. -/
  scope : Option String := none

/-- The last word of a name: a record or enumeration without its tag. -/
def identifier (name : String) : String :=
  String.ofList (name.toList.reverse.takeWhile (· ≠ ' ')).reverse

/-- **Read.** The `length` bytes from `offset` on, or an error if the buffer ends before. -/
def readBytes (bytes : Bytes) (offset length : Nat) : Traced Bytes :=
  match bytes.slice? offset length with
  | some run => pure run
  | none => .fail (.outOfBounds offset length bytes.length)

/-- What ends behind the buffer cannot be read. -/
theorem readBytes_of_beyond {bytes : Bytes} {offset n : Nat} (h : ¬offset + n ≤ bytes.length) :
    readBytes bytes offset n = .fail (.outOfBounds offset n bytes.length) := by
  rw [readBytes, Bytes.slice?, if_neg h]

/-- A read has the bytes it asks for if it ends within the buffer. -/
theorem outcome_readBytes (bytes : Bytes) (offset length : Nat) :
    (readBytes bytes offset length).outcome =
      if offset + length ≤ bytes.length then .ok ((bytes.drop offset).take length)
      else .error (.outOfBounds offset length bytes.length) := by
  unfold readBytes Bytes.slice?
  by_cases h : offset + length ≤ bytes.length <;> simp [h, Traced.fail]

/-- Reading bytes reports no reference. -/
@[simp]
theorem references_readBytes (bytes : Bytes) (offset length : Nat) :
    (readBytes bytes offset length).references = [] := by
  unfold readBytes
  split <;> rfl

/-- Reading bytes warns of nothing. -/
@[simp]
theorem warnings_readBytes (bytes : Bytes) (offset length : Nat) :
    (readBytes bytes offset length).warnings = [] := by
  unfold readBytes
  split <;> rfl

end SymVec

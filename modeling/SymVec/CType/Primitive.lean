/-!
# Primitive types

The scalar types of a 64-bit C target in which `long` and pointers have eight bytes.

* `Primitive.find?` — the primitive type with a given spelling;
* `Primitive.size_mem` — the size of a primitive type is 1, 2, 4 or 8 bytes.
-/

namespace SymVec

/-- What a scalar stands for, and so how it is written. -/
inductive Primitive.Role where
  | integer
  | floating
  | boolean
  /-- Written as a character literal. -/
  | character
  /-- A raw byte, written as a number. -/
  | byte
  | void
  deriving DecidableEq, Repr

/-- A scalar type: its size in bytes, what it stands for, and whether it has a sign. -/
structure Primitive where
  size : Nat
  role : Primitive.Role
  signed : Bool
  deriving DecidableEq, Repr

namespace Primitive

/-- The spelling of the raw byte type. -/
def byteName : String := "utbot_byte"

/-- The spelling of the smallest scalar, read where a `void` is pointed to. -/
def smallestName : String := "unsigned char"

/-- **Lookup by spelling.** A name that is no spelling of a primitive type has none. -/
def find? : String → Option Primitive
  | "bool" | "_Bool" => some ⟨1, .boolean, false⟩
  -- plain `char` has a sign on this target
  | "char" | "signed char" => some ⟨1, .character, true⟩
  | "unsigned char" => some ⟨1, .character, false⟩
  -- not a type of C, but the name under which raw bytes are written
  | "utbot_byte" => some ⟨1, .byte, true⟩
  | "short" | "short int" | "int16_t" => some ⟨2, .integer, true⟩
  | "unsigned short" | "unsigned short int" | "uint16_t" => some ⟨2, .integer, false⟩
  | "int" | "int32_t" => some ⟨4, .integer, true⟩
  | "unsigned int" | "unsigned" | "uint32_t" => some ⟨4, .integer, false⟩
  | "long" | "long int" | "int64_t" | "ssize_t" | "intptr_t" => some ⟨8, .integer, true⟩
  | "unsigned long" | "unsigned long int" | "uint64_t" | "size_t" | "uintptr_t"
  | "std::uintptr_t" => some ⟨8, .integer, false⟩
  | "long long" | "long long int" => some ⟨8, .integer, true⟩
  | "unsigned long long" | "unsigned long long int" => some ⟨8, .integer, false⟩
  | "int8_t" => some ⟨1, .integer, true⟩
  | "uint8_t" => some ⟨1, .integer, false⟩
  | "float" => some ⟨4, .floating, true⟩
  | "double" => some ⟨8, .floating, true⟩
  | "void" => some ⟨1, .void, false⟩
  | _ => none

/-- Whether values of the type are floating-point numbers. -/
def isFloating (p : Primitive) : Bool :=
  p.role = .floating

/-- A primitive value has 1, 2, 4 or 8 bytes. -/
theorem size_mem {name : String} {p : Primitive} (h : find? name = some p) :
    p.size ∈ [1, 2, 4, 8] := by
  unfold find? at h
  split at h <;> first | (cases h; simp) | cases h

end Primitive

end SymVec

import SymVec.Bytes

/-!
# Test vectors

What a symbolic execution engine records for one path: the objects it made concrete, as named bytes,
and the pointers between them. An object that no declared variable accounts for is *lazy*: it exists
only because the program followed a pointer to it.

* `MemoryObject.isLazy` — the objects that no declared variable accounts for;
* `TestVector.slots` — all stored pointers, in the order in which they are scanned;
* `TestVector.find?_isSome_iff` — a name finds an object exactly if some object has it.
-/

namespace SymVec

/-- The name that the engine gives to an object without a variable. -/
def placeholderName : String := "unnamed"

/-- A pointer stored in an object. -/
structure Slot where
  /-- The byte at which the pointer starts. -/
  offset : Nat
  /-- The number of the object it leads to. -/
  index : Nat
  deriving DecidableEq, Repr

/-- An object that was made concrete. -/
structure MemoryObject where
  name : String
  bytes : Bytes
  slots : List Slot := []
  /-- The address that the engine gave it; zero if it has none. -/
  address : Nat := 0
  /-- Whether the engine marked it as lazy. -/
  markedLazy : Bool := false
  deriving DecidableEq, Repr

namespace MemoryObject

/-- An object of that name and contents, lazy if the name is the placeholder. -/
def named (name : String) (bytes : Bytes) : MemoryObject :=
  { name, bytes, markedLazy := name == placeholderName }

/-- The object at another address. -/
def placedAt (o : MemoryObject) (address : Nat) : MemoryObject := { o with address }

/-- The object with one more pointer. -/
def pointing (o : MemoryObject) (offset index : Nat) : MemoryObject :=
  { o with slots := o.slots ++ [⟨offset, index⟩] }

/-- The object marked as lazy. -/
def asLazy (o : MemoryObject) : MemoryObject := { o with markedLazy := true }

/-- Whether no declared variable accounts for the object. -/
def isLazy (o : MemoryObject) : Bool := o.markedLazy || o.name == placeholderName

end MemoryObject

/-- How the path ended. -/
inductive Status where
  | success
  /-- The engine found an error on the path. -/
  | failed
  deriving DecidableEq, Repr

/-- The record of one path. -/
structure TestVector where
  objects : List MemoryObject
  status : Status := .success
  /-- What the engine says about the error. -/
  errorDescriptors : List String := []
  deriving DecidableEq, Repr

namespace TestVector

/-- The number of an object. -/
abbrev Index (v : TestVector) := Fin v.objects.length

/-- The object of a number. -/
def object (v : TestVector) (i : v.Index) : MemoryObject := v.objects.get i

/-- The numbers of all objects, in order. -/
def indices (v : TestVector) : List v.Index := List.finRange v.objects.length

/-- The first object of that name. -/
def find? (v : TestVector) (name : String) : Option v.Index :=
  -- names need not be distinct, and then the first object counts
  v.indices.find? fun i => (v.object i).name = name

/-- The contents of the first object of that name. -/
def contents? (v : TestVector) (name : String) : Option Bytes :=
  (v.find? name).map fun i => (v.object i).bytes

/-- All stored pointers with the objects that hold them, in order. -/
def slots (v : TestVector) : List (v.Index × Slot) :=
  v.indices.flatMap fun i => (v.object i).slots.map fun s => (i, s)

/-- Every object has a number. -/
theorem mem_indices (v : TestVector) (i : v.Index) : i ∈ v.indices :=
  List.mem_finRange i

/-- A name finds an object exactly if some object has it. -/
theorem find?_isSome_iff {v : TestVector} {name : String} :
    (v.find? name).isSome ↔ ∃ o ∈ v.objects, o.name = name := by
  simp only [find?, List.find?_isSome, decide_eq_true_eq]
  constructor
  · rintro ⟨i, -, h⟩
    exact ⟨v.object i, List.get_mem _ _, h⟩
  · rintro ⟨o, ho, h⟩
    obtain ⟨i, rfl⟩ := List.get_of_mem ho
    exact ⟨i, v.mem_indices i, h⟩

/-- What is found under a name has that name. -/
theorem name_of_find? {v : TestVector} {name : String} {i : v.Index} (h : v.find? name = some i) :
    (v.object i).name = name := by
  simpa using List.find?_some h

end TestVector

end SymVec

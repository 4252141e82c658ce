import SymVec.Json.Decode
import SymVec.TestVector

/-!
# Test vectors as JSON

The exchange form of objects and test vectors.
-/

namespace SymVec

open Json (ofList ofNatural)

/-- A stored pointer, of which both numbers must be given. -/
def Slot.ofJson? (j : Json) : Option Slot := do
  let ms ← j.record? ["offset", "index"]
  let offset ← ms.required? "offset" Json.natural?
  let index ← ms.required? "index" Json.natural?
  pure ⟨offset, index⟩

/-- A stored pointer. -/
def Slot.toJson (s : Slot) : Json :=
  .object [("offset", ofNatural s.offset), ("index", ofNatural s.index)]

/-- Bytes as a list of numbers below 256. -/
def Bytes.ofJson? : Json → Option Bytes := Json.list? Json.byte?

/-- Bytes as a list of numbers. -/
def Bytes.toJson (bytes : Bytes) : Json := ofList (fun b => ofNatural b.toNat) bytes

/-- An object. Its name and bytes must be given; without an address it lies nowhere. -/
def MemoryObject.ofJson? (j : Json) : Option MemoryObject := do
  let ms ← j.record? ["name", "bytes", "offsets", "address", "is_lazy"]
  let name ← ms.required? "name" Json.text?
  let bytes ← ms.required? "bytes" Bytes.ofJson?
  let slots ← ms.orElse? "offsets" [] (Json.list? Slot.ofJson?)
  let address ← ms.orElse? "address" 0 Json.natural?
  let markedLazy ← ms.orElse? "is_lazy" false Json.boolean?
  pure ⟨name, bytes, slots, address, markedLazy⟩

/-- An object with its pointers and its address. -/
def MemoryObject.toJson (o : MemoryObject) : Json :=
  .object
    [("name", .string o.name), ("bytes", Bytes.toJson o.bytes),
      ("offsets", ofList Slot.toJson o.slots), ("address", ofNatural o.address),
      ("is_lazy", .boolean o.markedLazy)]

/-- The words for the two ends of a path. -/
def Status.words : List (String × Status) := [("success", .success), ("failed", .failed)]

/-- The word for the end of a path. -/
def Status.toJson : Status → Json
  | .success => .string "success"
  | .failed => .string "failed"

/-- A test vector. Its objects must be given; a path ends well if nothing else is said. -/
def TestVector.ofJson? (j : Json) : Option TestVector := do
  let ms ← j.record? ["objects", "status", "error_descriptors"]
  let objects ← ms.required? "objects" (Json.list? MemoryObject.ofJson?)
  let status ← ms.orElse? "status" .success (Json.plainChoice? Status.words)
  let errorDescriptors ← ms.orElse? "error_descriptors" [] (Json.list? Json.text?)
  pure ⟨objects, status, errorDescriptors⟩

/-- A test vector. -/
def TestVector.toJson (v : TestVector) : Json :=
  .object
    [("objects", ofList MemoryObject.toJson v.objects), ("status", v.status.toJson),
      ("error_descriptors", ofList .string v.errorDescriptors)]

end SymVec

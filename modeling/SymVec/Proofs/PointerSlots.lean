import SymVec.Decoder.Value

/-!
# Pointer slots

Where the pointers of a value lie, told from its type alone: the members of structures that are
pointers, in the order of their declaration, each nested structure in its place and the elements of
an array one after another. A member of a union that is a pointer is no slot, since it is not known
to be active.

* `Decoder.slots` — the slots of a type, in order;
* `Decoder.pointers` — the views at these places of a value;
* `Decoder.referenceAt`, `Decoder.slotView` — what decoding makes of a slot.
-/

namespace SymVec

/-- A place at which a pointer is stored. -/
structure PointerSlot where
  /-- The path to the pointer. -/
  path : String
  /-- The byte of the buffer at which it starts. -/
  offset : Nat
  type : CType
  deriving DecidableEq, Repr

namespace Decoder

variable (d : Decoder)

/-! ### Slots of a type -/

/-- The slots of several parts in a row, if each part has its slots. -/
def joined : List (Option (List PointerSlot)) → Option (List PointerSlot)
  | [] => some []
  | part :: rest => do
    let first ← part
    let others ← joined rest
    some (first ++ others)

/-- The slots of the elements of type `t` in `length` bytes from `offset` on, of which only records
have any. -/
def elementSlots (nested : CType → Nat → String → Option (List PointerSlot)) (t : CType)
    (offset length : Nat) (access : String) : Option (List PointerSlot) :=
  match d.registry.kindOf t, d.elementSize t with
  | .struct, .ok size | .union, .ok size =>
    joined ((List.range (length / size)).map fun i =>
      nested t (offset + i * size) s!"{access}[{i}]")
  | _, _ => some []

/-- The slots of a member of a record that starts at `base`. -/
def memberSlots (nested : CType → Nat → String → Option (List PointerSlot)) (kind : Record.Kind)
    (base : Nat) (access : String) (f : Field) : Option (List PointerSlot) :=
  match d.registry.kindOf f.type with
  -- a record within a record has its slots in the place of the member
  | .struct | .union => nested f.type (base + f.offset) (memberAccess access f)
  | .array =>
    match allArrays f.type, d.registry.sizeOf f.type with
    | true, .ok size =>
      d.elementSlots nested f.type.baseType (base + f.offset) size (memberAccess access f)
    | _, _ => some []
  | .objectPointer =>
    match kind with
    | .struct => some [⟨memberAccess access f, base + f.offset, f.type⟩]
    -- which member of a union is active is not known
    | .union => some []
  | _ => some []

/-- **Slots of a record** at `offset`, if records are nested at most `levels` deep in it, itself
included. -/
def recordSlots : (levels : Nat) → CType → Nat → String → Option (List PointerSlot)
  | 0, _, _, _ => none
  | levels + 1, t, offset, access =>
    match d.registry.recordOf t with
    | .ok record =>
      joined (record.fields.map (d.memberSlots (recordSlots levels) record.kind offset access))
    | .error _ => none

/-- The slots of the elements that a buffer of that length holds. -/
def sequenceSlots (t : CType) (usage : Usage) (length : Nat) (name : String) :
    Option (List PointerSlot) :=
  match if 1 < t.dimension then .ok length else d.countedLength t.pointee length usage with
  | .ok counted => d.elementSlots (d.recordSlots d.config.maxDepth) t.baseType 0 counted name
  | .error _ => some []

/-- **Slots of a type** in a buffer of that length. -/
def slots (t : CType) (usage : Usage) (length : Nat) (name : String) : Option (List PointerSlot) :=
  match d.registry.kindOf t with
  | .struct | .union => d.recordSlots d.config.maxDepth t 0 name
  | .array => d.sequenceSlots t usage length name
  | .objectPointer =>
    -- an object found by following pointers is not followed further
    if usage = .lazy then some [⟨name, 0, t⟩]
    else if t.isCString then some []
    else d.sequenceSlots t usage length name
  | _ => some []

/-! ### Views at the slots -/

/-- The views at the slots of elements. -/
def elementPointers (nested : CType → View → List View) (t : CType) (elements : List View) :
    List View :=
  match d.registry.kindOf t with
  | .struct | .union => elements.flatMap (nested t)
  | _ => []

/-- The views at the slots of a member. -/
def memberPointers (nested : CType → View → List View) (kind : Record.Kind) (f : Field)
    (view : View) : List View :=
  match d.registry.kindOf f.type with
  | .struct | .union => nested f.type view
  | .array =>
    if allArrays f.type then
      d.elementPointers nested f.type.baseType (View.flatten f.type.dimension [view])
    else []
  | .objectPointer =>
    match kind with
    | .struct => [view]
    | .union => []
  | _ => []

/-- The views at the slots of a record. -/
def recordPointers : (levels : Nat) → CType → View → List View
  | 0, _, _ => []
  | levels + 1, t, view =>
    match d.registry.recordOf t with
    | .ok record =>
      (record.fields.zip view.children).flatMap fun member =>
        d.memberPointers (recordPointers levels) record.kind member.1 member.2
    | .error _ => []

/-- **Views at the slots** of a value. -/
def pointers (t : CType) (usage : Usage) (view : View) : List View :=
  match d.registry.kindOf t with
  | .struct | .union => d.recordPointers d.config.maxDepth t view
  | .array =>
    d.elementPointers (d.recordPointers d.config.maxDepth) t.baseType
      (View.flatten t.dimension [view])
  | .objectPointer =>
    if usage = .lazy then [view]
    else if t.isCString then []
    else
      d.elementPointers (d.recordPointers d.config.maxDepth) t.baseType
        (View.flatten t.dimension [view])
  | _ => []

/-! ### What a slot stores -/

/-- The address stored in a slot. -/
def storedAddress (bytes : Bytes) (slot : PointerSlot) : Nat :=
  Bytes.word ((bytes.drop slot.offset).take d.registry.pointerSize)

/-- The reference to the object at the stored address, if the address is known. -/
def referenceAt (bytes : Bytes) (slot : PointerSlot) : Option Reference :=
  (d.table.get? (d.storedAddress bytes slot)).map fun name =>
    ⟨slot.path, name, Literal.referenceCast slot.type.name slot.type.dimension⟩

/-- The view of a slot: null if the stored address is known, and else the address. -/
def slotView (bytes : Bytes) (slot : PointerSlot) : View :=
  match d.table.get? (d.storedAddress bytes slot) with
  | some _ => .primitive Literal.null
  | none =>
    .primitive
      (Literal.address (d.storedAddress bytes slot) slot.type.name slot.type.dimension)

end Decoder

end SymVec

import SymVec.Decoder.Array

/-!
# Records

A structure is read member by member in the order of their declaration. So is a union, whose members
all read the same bytes; a member that is a pointer is not followed there, since which member is
active is not known. Records nested by value are counted, and nesting beyond the limit is an error.

* `Decoder.fieldView`, `Decoder.unionMemberView` — a member of a structure, and one of a union;
* `Decoder.structView`, `Decoder.unionView` — a record by its members;
* `Decoder.recordView` — a record in which others may be nested so many levels deep.
-/

namespace SymVec.Decoder

variable (d : Decoder) (bytes : Bytes)

/-- Whether all levels of a type are arrays. -/
def allArrays (t : CType) : Bool := t.levels.all (· != .pointer)

/-- The number of elements of the outermost array of a type. -/
def outermostLength (t : CType) : Nat :=
  match t.levels.head? with
  | some (.array n) => n
  | _ => 0

/-- The path to a member. An anonymous member adds nothing to it. -/
def memberAccess (access : String) (f : Field) : String :=
  if f.isAnonymous then access else s!"{access}.{f.name}"

/-- A member that is an array. One that holds pointers under further levels is left null, as many
times as its outermost length says. Memory for any such length is taken to be there. -/
def arrayFieldView (usage : Usage) (nested : Nested) (t : CType) (offset : Nat) (access : String) :
    Traced View := do
  let size ← Traced.ofLayout (d.registry.sizeOf t)
  -- one level: the elements are read one after another
  if t.dimension = 1 then d.arrayView bytes nested t.pointee offset size access
  else if allArrays t then d.nestedArrayView bytes nested usage t offset size access
  else pure (.array (List.replicate (outermostLength t) (.primitive Literal.null)))

/-- **Member** of a record that starts at `base`. -/
def fieldView (usage : Usage) (nested : Nested) (record : Record) (f : Field) (base : Nat)
    (access : String) : Traced View :=
  match Word.add? base f.offset with
  | none => .fail (.outOfBounds base f.offset bytes.length)
  | some offset =>
    -- references within the member are found under its path
    let path := memberAccess access f
    match d.registry.kindOf f.type with
    | .primitive =>
      match f.type.primitive? with
      | none => .fail (.unsupported f.type.displayName)
      | some p =>
        -- only members of a primitive type are masked to their bits
        if f.isBitField p.size then bitFieldView bytes f p offset
        else primitiveView bytes f.type offset
    | .struct | .union => nested f.type offset path
    | .enumeration => d.enumerationView bytes f.type offset
    | .array => d.arrayFieldView bytes usage nested f.type offset path
    | .objectPointer => d.pointerView bytes f.type offset path
    | .functionPointer =>
      pure (.functionPointer (Literal.fieldStub (identifier record.name) f.name))
    | .unknown => .fail (.unsupported f.type.displayName)

/-- A member of a union. A pointer is left null. -/
def unionMemberView (usage : Usage) (nested : Nested) (record : Record) (f : Field) (base : Nat)
    (access : String) : Traced View :=
  match d.registry.kindOf f.type with
  -- which member is active is not known, so its bytes may be no address
  | .objectPointer => pure (.primitive Literal.null)
  | _ => d.fieldView bytes usage nested record f base access

/-- The raw bytes of a record. -/
def rawBytesView (nested : Nested) (offset size : Nat) : Traced View :=
  d.arrayView bytes nested .rawByte offset size ""

/-- The views of all members with their names, by a decoder for one. -/
def membersView (member : Field → Traced View) (fields : List Field) :
    Traced (List (String × View)) :=
  fields.mapM fun f => do
    let view ← member f
    pure (f.name, view)

/-- A structure. One with an anonymous member has no initializer, and is rebuilt from its bytes. -/
def structView (usage : Usage) (nested : Nested) (record : Record) (offset : Nat)
    (access : String) : Traced View := do
  let name := identifier record.name
  let fields ←
    membersView (fun f => d.fieldView bytes usage nested record f offset access) record.fields
  let override ←
    -- its members are decoded all the same, and their references noted
    if record.hasAnonymousMember then do
      let raw ← d.rawBytesView bytes nested offset record.size
      pure (some (Literal.fromBytes name raw.literal))
    else pure none
  pure (.struct name fields record.isAggregate override)

/-- A union, its raw bytes first. -/
def unionView (usage : Usage) (nested : Nested) (record : Record) (offset : Nat)
    (access : String) : Traced View := do
  -- the raw bytes are read first, so an error there comes before those of the members
  let raw ← d.rawBytesView bytes nested offset record.size
  let members ←
    membersView (fun f => d.unionMemberView bytes usage nested record f offset access) record.fields
  pure (.union (identifier record.name) raw members)

/-- **Record** at `offset`, in which records may be nested `levels` deep, itself included. -/
def recordView (usage : Usage) : (levels : Nat) → Nested
  -- the limit stands in the error, not the levels that were left
  | 0, _, _, _ => .fail (.tooDeep d.config.maxDepth)
  | levels + 1, t, offset, access => do
    let record ← Traced.ofLayout (d.registry.recordOf t)
    match record.kind with
    | .struct => d.structView bytes usage (recordView usage levels) record offset access
    | .union => d.unionView bytes usage (recordView usage levels) record offset access

end SymVec.Decoder

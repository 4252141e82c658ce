import SymVec.Registry.Basic

/-!
# Listing of layouts

The records and enumerations of a registry as text, one line for each member and each named value,
in the order of their names.
-/

namespace SymVec

/-- A text filled with blanks on its right up to `width` characters. -/
def padRight (width : Nat) (text : String) : String :=
  text ++ String.ofList (List.replicate (width - text.length) ' ')

namespace Registry

/-- The line of a member: its offset, type and name, and the bits of a bit field. -/
def fieldLine (f : Field) : String :=
  -- a member without a name is listed all the same
  let name := if f.isAnonymous then "<anonymous>" else f.name
  let place := padRight 4 (toString f.offset)
  let bits :=
    match f.bitSize with
    | some bits => s!" : {bits} (bit {f.bitOffset})"
    | none => ""
  s!"  +{place} {f.type.displayName} {name}{bits}\n"

/-- The lines of a record, its members by offset. -/
def recordLines (record : Record) : String :=
  let keyword :=
    match record.kind with
    | .struct => "struct"
    | .union => "union"
  s!"{keyword} {record.name} (size {record.size})\n" ++
    String.join (record.fieldsByOffset.map fieldLine)

/-- The lines of an enumeration, its values in the order of their declaration. -/
def enumerationLines (e : Enumeration) : String :=
  s!"enum {e.name} (size {e.size})\n" ++
    String.join (e.entries.map fun entry => s!"  {entry.name} = {entry.value}\n")

/-- **Listing.** The lines of all records, then those of all enumerations. -/
def listing (r : Registry) : String :=
  String.join (r.records.toList.map recordLines) ++
    String.join (r.enumerations.toList.map enumerationLines)

end Registry

end SymVec

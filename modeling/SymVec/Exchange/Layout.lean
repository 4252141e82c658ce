import SymVec.Json.Decode
import SymVec.Registry.Basic

/-!
# Types and layouts as JSON

The exchange form of types, records, enumerations and registries. A registry is written with its
records and enumerations by name, and read with later entries replacing earlier ones of their name.

* `Level.ofJson?_toJson`, `CType.ofJson?_toJson` — a type is read back as it was written, if the
  lengths of its arrays are machine words.
-/

namespace SymVec

open Json (ofList ofNatural ofOption)

/-! ### Types -/

/-- A level is a choice, of which an array carries its length. -/
def Level.ofJson? (j : Json) : Option Level :=
  match j.choice? with
  | some ("pointer", none) => some .pointer
  -- the word may also be written as a member without a value
  | some ("pointer", some .null) => some .pointer
  | some ("array", some length) => length.natural?.map .array
  | _ => none

/-- A pointer is written as a word, an array with its length. -/
def Level.toJson : Level → Json
  | .pointer => .string "pointer"
  | .array length => .object [("array", ofNatural length)]

/-- A type. Its name must be given; without levels it is a base type. -/
def CType.ofJson? (j : Json) : Option CType := do
  let ms ← j.record? ["name", "levels", "function", "maybe_array"]
  let name ← ms.required? "name" Json.text?
  let levels ← ms.orElse? "levels" [] (Json.list? Level.ofJson?)
  let isFunction ← ms.orElse? "function" false Json.boolean?
  let maybeArray ← ms.orElse? "maybe_array" false Json.boolean?
  pure ⟨name, levels, isFunction, maybeArray⟩

/-- A type with all its members. -/
def CType.toJson (t : CType) : Json :=
  .object
    [("name", .string t.name), ("levels", ofList Level.toJson t.levels),
      ("function", .boolean t.isFunction), ("maybe_array", .boolean t.maybeArray)]

/-- How an array level can be too long to be exchanged. -/
def Level.IsWord : Level → Prop
  | .pointer => True
  | .array length => length < Word.limit

/-- A level is read back as it was written. -/
theorem Level.ofJson?_toJson {level : Level} (h : level.IsWord) :
    ofJson? level.toJson = some level := by
  cases level with
  | pointer => rfl
  | array length =>
    have hlength : length < 0x10000000000000000 := h
    simp [ofJson?, toJson, Json.choice?, Json.natural?, Json.naturalBelow?, Json.ofNatural]
    omega

/-- A type is read back as it was written, if the lengths of its arrays are machine words. -/
theorem CType.ofJson?_toJson {t : CType} (h : ∀ level ∈ t.levels, level.IsWord) :
    ofJson? t.toJson = some t := by
  -- each level is read back, so the list of them is
  have hlevels : (t.levels.map Level.toJson).mapM Level.ofJson? = some t.levels := by
    generalize t.levels = levels at h
    induction levels with
    | nil => rfl
    | cons level rest ih =>
      simp [List.mapM_cons, Level.ofJson?_toJson (h level (by simp)),
        ih fun l hl => h l (by simp [hl])]
  simp [ofJson?, toJson, Json.record?, Json.Members.required?, Json.Members.orElse?, Json.text?,
    Json.boolean?, Json.list?, Json.ofList, hlevels, List.lookup_cons]

/-! ### Records -/

/-- A member. Its type and offset must be given; without a name it is anonymous. -/
def Field.ofJson? (j : Json) : Option Field := do
  let ms ← j.record? ["name", "type", "offset", "bit_size", "bit_offset"]
  let name ← ms.orElse? "name" "" Json.text?
  let type ← ms.required? "type" CType.ofJson?
  let offset ← ms.required? "offset" Json.natural?
  let bitSize ← ms.maybe? "bit_size" Json.natural?
  let bitOffset ← ms.orElse? "bit_offset" 0 Json.natural?
  pure ⟨name, type, offset, bitSize, bitOffset⟩

/-- A member with all that is known of it. -/
def Field.toJson (f : Field) : Json :=
  .object
    [("name", .string f.name), ("type", f.type.toJson), ("offset", ofNatural f.offset),
      ("bit_size", ofOption ofNatural f.bitSize), ("bit_offset", ofNatural f.bitOffset)]

/-- The words for the two kinds of records. -/
def Record.kindWords : List (String × Record.Kind) := [("struct", .struct), ("union", .union)]

/-- The word for a kind of record. -/
def Record.Kind.toJson : Record.Kind → Json
  | .struct => .string "struct"
  | .union => .string "union"

/-- A record. Its name, kind and size must be given. -/
def Record.ofJson? (j : Json) : Option Record := do
  let ms ← j.record? ["name", "kind", "size", "fields", "c_like", "has_anonymous_member"]
  let name ← ms.required? "name" Json.text?
  let kind ← ms.required? "kind" (Json.plainChoice? Record.kindWords)
  let size ← ms.required? "size" Json.natural?
  let fields ← ms.orElse? "fields" [] (Json.list? Field.ofJson?)
  let isAggregate ← ms.orElse? "c_like" true Json.boolean?
  let hasAnonymousMember ← ms.orElse? "has_anonymous_member" false Json.boolean?
  pure ⟨name, kind, size, fields, isAggregate, hasAnonymousMember⟩

/-- A record with its members in the order of their declaration. -/
def Record.toJson (r : Record) : Json :=
  .object
    [("name", .string r.name), ("kind", r.kind.toJson), ("size", ofNatural r.size),
      ("fields", ofList Field.toJson r.fields), ("c_like", .boolean r.isAggregate),
      ("has_anonymous_member", .boolean r.hasAnonymousMember)]

/-! ### Enumerations -/

/-- A named value, which must be a signed integer of 64 bits. -/
def Enumerator.ofJson? (j : Json) : Option Enumerator := do
  let ms ← j.record? ["name", "value"]
  let name ← ms.required? "name" Json.text?
  let value ← ms.required? "value" Json.signed?
  pure ⟨name, value⟩

/-- A named value. -/
def Enumerator.toJson (e : Enumerator) : Json :=
  .object [("name", .string e.name), ("value", .integer e.value)]

/-- An enumeration. Its name must be given; it has four bytes if nothing else is said. -/
def Enumeration.ofJson? (j : Json) : Option Enumeration := do
  let ms ← j.record? ["name", "size", "entries", "access"]
  let name ← ms.required? "name" Json.text?
  let size ← ms.orElse? "size" 4 Json.natural?
  let entries ← ms.orElse? "entries" [] (Json.list? Enumerator.ofJson?)
  let scope ← ms.maybe? "access" Json.text?
  pure ⟨name, size, entries, scope⟩

/-- An enumeration with its values in the order of their declaration. -/
def Enumeration.toJson (e : Enumeration) : Json :=
  .object
    [("name", .string e.name), ("size", ofNatural e.size),
      ("entries", ofList Enumerator.toJson e.entries), ("access", ofOption .string e.scope)]

/-! ### Registries -/

/-- A registry. Everything may be left out, and pointers then have eight bytes. -/
def Registry.ofJson? (j : Json) : Option Registry := do
  let ms ← j.record? ["records", "enums", "pointer_size"]
  let records ← ms.orElse? "records" [] (Json.list? Record.ofJson?)
  let enumerations ← ms.orElse? "enums" [] (Json.list? Enumeration.ofJson?)
  let pointerSize ← ms.orElse? "pointer_size" 8 Json.natural?
  -- repeated names are not refused: the last entry of a name counts
  pure (.ofLists records enumerations pointerSize)

/-- A registry, its records and enumerations in the order of their names. -/
def Registry.toJson (r : Registry) : Json :=
  .object
    [("records", ofList Record.toJson r.records.toList),
      ("enums", ofList Enumeration.toJson r.enumerations.toList),
      ("pointer_size", ofNatural r.pointerSize)]

end SymVec

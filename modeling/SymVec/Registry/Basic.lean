import SymVec.Catalog
import SymVec.Layout

/-!
# Type registry

The records and enumerations known by name, and what follows from them for a type: its kind and its
size. A record or enumeration is found by its name with or without a leading `struct `, `union `,
`enum ` or `class `.

* `Registry.sizeUnder_under` — the size of a type depends on its base and its levels alone;
* `Registry.recordOf_of_kindOf` — a type of kind structure or union has a record of that kind;
* `Registry.ofLists_toLists` — listing a registry and reading it back gives the same registry.
-/

namespace SymVec

/-- What a type is, by its outermost level or its base. -/
inductive CType.Kind where
  | primitive
  | struct
  | union
  | enumeration
  | array
  | objectPointer
  | functionPointer
  | unknown
  deriving DecidableEq, Repr

/-- The layouts known by name, and the size of a pointer in bytes. -/
structure Registry where
  records : Catalog Record.name := .empty
  enumerations : Catalog Enumeration.name := .empty
  pointerSize : Nat := 8

namespace Registry

instance : Inhabited Registry := ⟨{}⟩

/-! ### Contents -/

/-- The record added, instead of an earlier one of its name. -/
def addRecord (r : Registry) (record : Record) : Registry :=
  { r with records := r.records.insert record }

/-- The enumeration added, instead of an earlier one of its name. -/
def addEnumeration (r : Registry) (e : Enumeration) : Registry :=
  { r with enumerations := r.enumerations.insert e }

/-- The registry with another pointer size. -/
def withPointerSize (r : Registry) (size : Nat) : Registry := { r with pointerSize := size }

/-- The registry of the listed records and enumerations; later ones replace earlier ones. -/
def ofLists (records : List Record) (enumerations : List Enumeration) (pointerSize : Nat) :
    Registry :=
  ⟨.ofList records, .ofList enumerations, pointerSize⟩

/-- Listing a registry and reading it back gives the same registry. -/
theorem ofLists_toLists (r : Registry) :
    ofLists r.records.toList r.enumerations.toList r.pointerSize = r := by
  simp [ofLists, Catalog.ofList_toList]

/-- The words that may stand before the name of a record or enumeration. -/
def tags : List String := ["struct ", "union ", "enum ", "class "]

/-- The name without its tag and the blanks after it. -/
def untagged (name : String) : String :=
  -- the first tag that fits is taken off, and only once
  match tags.findSome? fun tag => Text.after? tag name with
  | some rest => String.ofList (Text.trimStart rest.toList)
  | none => name

/-- The entry under the name as it is spelled, or else under the name without its tag. -/
def lookup {α : Type} {key : α → String} (c : Catalog key) (name : String) : Option α :=
  (c.find? name).or (c.find? (untagged name))

/-- The record of that name. -/
def record? (r : Registry) (name : String) : Option Record := lookup r.records name

/-- The enumeration of that name. -/
def enumeration? (r : Registry) (name : String) : Option Enumeration := lookup r.enumerations name

/-- More records than this cannot be nested in each other by value. -/
def nestingLimit (r : Registry) : Nat := r.records.size + 1

/-! ### Kinds -/

/-- **Kind of a base type.** Primitive types come before records, and records before
enumerations. -/
def baseKind (r : Registry) (t : CType) : CType.Kind :=
  -- a function has no value, so under no levels it stands for a pointer to it
  if t.isFunction then .functionPointer
  else if t.primitive?.isSome then .primitive
  else
    match r.record? t.baseName with
    | some record =>
      match record.kind with
      | .struct => .struct
      | .union => .union
    | none => if (r.enumeration? t.baseName).isSome then .enumeration else .unknown

/-- **Kind of a type.** That of its outermost level, or of its base if it has none. -/
def kindOf (r : Registry) (t : CType) : CType.Kind :=
  match t.levels with
  | .pointer :: _ => .objectPointer
  | .array _ :: _ => .array
  | [] => r.baseKind t

/-- No base type is an array. -/
theorem baseKind_ne_array (r : Registry) (t : CType) : r.baseKind t ≠ .array := by
  unfold baseKind
  repeat' split
  all_goals simp

/-- No base type is a pointer to an object. -/
theorem baseKind_ne_objectPointer (r : Registry) (t : CType) : r.baseKind t ≠ .objectPointer := by
  unfold baseKind
  repeat' split
  all_goals simp

/-- Arrays are the types whose outermost level is an array. -/
theorem kindOf_eq_array_iff {r : Registry} {t : CType} :
    r.kindOf t = .array ↔ ∃ n inner, t.levels = .array n :: inner := by
  unfold kindOf
  split
  · next hlevels => simp [hlevels]
  · next hlevels => simp [hlevels]
  · next hlevels => simp [hlevels, baseKind_ne_array]

/-- Pointers to objects are the types whose outermost level is a pointer. -/
theorem kindOf_eq_objectPointer_iff {r : Registry} {t : CType} :
    r.kindOf t = .objectPointer ↔ t.isObjectPointer = true := by
  unfold kindOf CType.isObjectPointer
  split
  · next hlevels => simp [hlevels]
  · next hlevels => simp [hlevels]
  · next hlevels => simp [hlevels, baseKind_ne_objectPointer]

/-- The record of a type without levels. -/
def recordOf (r : Registry) (t : CType) : Except LayoutError Record :=
  match if t.isSimple then r.record? t.baseName else none with
  | some record => .ok record
  | none => .error (.notARecord t.displayName)

/-- The members of a record type in the order of their declaration. -/
def fieldsOf (r : Registry) (t : CType) : Except LayoutError (List Field) :=
  (r.recordOf t).map (·.fields)

/-- The enumeration of a type without levels. -/
def enumerationOf (r : Registry) (t : CType) : Except LayoutError Enumeration :=
  match if t.isSimple then r.enumeration? t.baseName else none with
  | some e => .ok e
  | none => .error (.notAnEnumeration t.displayName)

/-! ### Sizes -/

/-- The size of the base type. -/
def baseSize (r : Registry) (t : CType) : Except LayoutError Nat :=
  if t.isFunction then .ok r.pointerSize
  else
    -- in the same order of precedence as for the kind
    match t.primitive?, r.record? t.baseName, r.enumeration? t.baseName with
    | some p, _, _ => .ok p.size
    | none, some record, _ => .ok record.size
    | none, none, some e => .ok e.size
    | none, none, none => .error (.unknownType { t with levels := [] }.displayName)

/-- The size of the base type of `t` under other levels. -/
def sizeUnder (r : Registry) (t : CType) : List Level → Except LayoutError Nat
  | [] => r.baseSize t
  -- what is behind the pointer does not matter, even if it is unknown
  | .pointer :: _ => .ok r.pointerSize
  | .array length :: inner => do
    let size ← sizeUnder r t inner
    match Word.mul? length size with
    | some total => .ok total
    | none => .error (.sizeOverflow { t with levels := .array length :: inner }.displayName)

/-- **Size of a type** in bytes. -/
def sizeOf (r : Registry) (t : CType) : Except LayoutError Nat :=
  r.sizeUnder t t.levels

/-- Levels that were stripped from a type play no part in sizes under other levels. -/
theorem sizeUnder_under (r : Registry) (t : CType) (depth : Nat) (levels : List Level) :
    r.sizeUnder (t.under depth) levels = r.sizeUnder t levels := by
  induction levels with
  | nil => rfl
  | cons level inner ih =>
    cases level with
    | pointer => rfl
    | array length =>
      simp only [sizeUnder, ih]
      rfl

/-- A type of kind structure or union has a record of that kind. -/
theorem recordOf_of_kindOf {r : Registry} {t : CType}
    (h : r.kindOf t = .struct ∨ r.kindOf t = .union) :
    ∃ record, r.recordOf t = .ok record ∧
      (record.kind = .struct ↔ r.kindOf t = .struct) := by
  -- a pointer or array would be of that kind itself
  have hlevels : t.levels = [] := by
    rcases t with ⟨name, levels, isFunction, maybeArray⟩
    match levels with
    | [] => rfl
    | .pointer :: _ => simp [kindOf] at h
    | .array _ :: _ => simp [kindOf] at h
  have hkind : r.kindOf t = r.baseKind t := by simp [kindOf, hlevels]
  rw [hkind] at h ⊢
  have hfun : t.isFunction = false := by
    cases hf : t.isFunction with
    | false => rfl
    | true => simp [baseKind, hf] at h
  have hprim : t.primitive? = none := by
    cases hp : t.primitive? with
    | none => rfl
    | some p => simp [baseKind, hfun, hp] at h
  -- a base that is neither function nor primitive has its kind from the record of its name
  cases hrec : r.record? t.baseName with
  | none =>
    cases he : r.enumeration? t.baseName <;> simp [baseKind, hfun, hprim, hrec, he] at h
  | some record =>
    refine ⟨record, ?_, ?_⟩
    · simp [recordOf, CType.isSimple, hlevels, hfun, hrec]
    · cases hk : record.kind <;> simp [baseKind, hfun, hprim, hrec, hk]

end Registry

end SymVec

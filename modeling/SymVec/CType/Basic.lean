import SymVec.CType.Primitive
import SymVec.Text.Affix
import SymVec.Text.Blank

/-!
# C types

A C type is the name of a base type under a list of *levels*, outermost first: `int *[3]`, an array
of three pointers, is `int` under `array 3` and `pointer`. The length of what a pointer leads to is
not part of a type; it is assumed from the *usage* under which a value is read.

* `CType.levels_pointee`, `CType.levels_baseType` — what stripping does to the levels;
* `CType.arrayLengths_eq_map` — outside lazy usage every level has one length: an array its own, a
  pointer the assumed one;
* `CType.displayName` — the type as it is printed.
-/

namespace SymVec

/-- One step of a type: a pointer to the rest, or an array of so many of the rest. -/
inductive Level where
  | pointer
  | array (length : Nat)
  deriving DecidableEq, Repr

/-- The role in which a value is read; it decides how many elements a pointer is taken to lead
to. -/
inductive Usage where
  /-- An argument of the function under test. -/
  | parameter
  /-- The value it returns. -/
  | result
  /-- An object that is only found by following pointers. -/
  | lazy
  /-- A value whose element count is given. -/
  | knownSize (count : Nat)
  deriving DecidableEq, Repr

namespace Usage

/-- The elements behind a pointer that is the only level of its type. -/
def singleLength : Usage → Nat
  | parameter => 10
  | result => 1
  | lazy => 1
  | knownSize n => n

/-- The elements behind each pointer of a type with more levels. -/
def nestedLength : Usage → Nat
  | parameter => 2
  | result => 2
  | lazy => 1
  | knownSize n => n

/-- The element count, where it is given. -/
def knownSize? : Usage → Option Nat
  | knownSize n => some n
  | _ => none

end Usage

/-- A C type. -/
structure CType where
  /-- The base type as it is spelled, with a leading `const ` if it is constant. -/
  name : String
  /-- The pointers and arrays over the base type, outermost first. -/
  levels : List Level := []
  /-- Whether the base is a function, so that a value without levels is a function pointer. -/
  isFunction : Bool := false
  /-- Whether a pointer may lead to more than one element. -/
  maybeArray : Bool := false
  deriving DecidableEq, Repr

namespace CType

/-! ### Building types -/

/-- The base type `name` alone. -/
def simple (name : String) : CType := ⟨name, [], false, false⟩

/-- A pointer to a function whose type is spelled `signature`. -/
def functionPointer (signature : String) : CType := ⟨signature, [], true, false⟩

/-- A pointer to this type. -/
def pointer (t : CType) : CType := { t with levels := .pointer :: t.levels }

/-- An array of `length` elements of this type. -/
def array (t : CType) (length : Nat) : CType := { t with levels := .array length :: t.levels }

/-- The type whose pointers may lead to several elements. -/
def withMaybeArray (t : CType) : CType := { t with maybeArray := true }

/-- The array that records the values a stub returned, one per call. -/
def recording (t : CType) : CType := (t.array Usage.parameter.singleLength).withMaybeArray

/-- The type of C strings, `const char *`. -/
def cString : CType := (simple "const char").pointer.withMaybeArray

def int : CType := simple "int"

def longLong : CType := simple "long long"

def void : CType := simple "void"

/-- The smallest scalar, read where what is pointed to has no value. -/
def smallest : CType := simple Primitive.smallestName

/-- The type of raw bytes. -/
def rawByte : CType := simple Primitive.byteName

/-! ### The base type -/

/-- The base name without a leading `const`. -/
def baseName (t : CType) : String :=
  match Text.after? "const " t.name with
  -- more blanks may stand between `const` and the name
  | some rest => String.ofList (Text.trimStart rest.toList)
  | none => t.name

/-- Whether the base type is constant. -/
def isConst (t : CType) : Bool := (Text.after? "const " t.name).isSome

/-- Whether the type is its base type and no function. -/
def isSimple (t : CType) : Bool := t.levels.isEmpty && !t.isFunction

/-- The primitive type at the base. A function type has none. -/
def primitive? (t : CType) : Option Primitive :=
  if t.isFunction then none else Primitive.find? t.baseName

/-- Whether the base type is `void`. -/
def baseIsVoid (t : CType) : Bool := !t.isFunction && t.baseName == "void"

/-- Whether the base type is primitive of the given role. -/
def hasRole (t : CType) (role : Primitive.Role) : Bool := t.primitive?.map (·.role) = some role

/-- Whether the type is `void`. -/
def isVoid (t : CType) : Bool := t.isSimple && t.baseIsVoid

/-- Whether the type is a truth value. -/
def isBoolean (t : CType) : Bool := t.isSimple && t.hasRole .boolean

/-- Whether the type is a character. -/
def isCharacter (t : CType) : Bool := t.isSimple && t.hasRole .character

/-! ### Levels -/

/-- The number of levels. -/
def dimension (t : CType) : Nat := t.levels.length

/-- Whether the outermost level is a pointer. -/
def isObjectPointer (t : CType) : Bool := t.levels.head? = some .pointer

/-- Whether the outermost level is an array. -/
def isArray (t : CType) : Bool :=
  match t.levels.head? with
  | some (.array _) => true
  | _ => false

/-- Whether the type is a function pointer. -/
def isFunctionPointer (t : CType) : Bool := t.isFunction && t.levels.isEmpty

/-- Whether the type is a pointer to function pointers. -/
def isArrayOfFunctionPointers (t : CType) : Bool := t.isFunction && t.isObjectPointer

/-- Whether the type is a pointer with nothing between it and the base. -/
def isSinglePointer (t : CType) : Bool := t.levels.length = 1 && t.isObjectPointer

/-- Whether the type is a pointer to a character. -/
def isCString (t : CType) : Bool := t.isSinglePointer && t.hasRole .character

/-- The type under the outermost `depth` levels. -/
def under (t : CType) (depth : Nat) : CType := { t with levels := t.levels.drop depth }

/-- The type under the outermost level. -/
def pointee (t : CType) : CType := t.under 1

/-- The type under all levels. -/
def baseType (t : CType) : CType := t.under t.dimension

/-- Stripping a type drops its outermost levels. -/
@[simp]
theorem levels_under (t : CType) (depth : Nat) : (t.under depth).levels = t.levels.drop depth :=
  rfl

/-- The elements have all levels but the outermost. -/
@[simp]
theorem levels_pointee (t : CType) : t.pointee.levels = t.levels.tail := by
  simp [pointee]

/-- The base has no levels. -/
@[simp]
theorem levels_baseType (t : CType) : t.baseType.levels = [] := by
  simp [baseType, dimension]

/-- What is under a type has the same base. -/
@[simp]
theorem isFunction_under (t : CType) (depth : Nat) : (t.under depth).isFunction = t.isFunction :=
  rfl

/-! ### Values that are checked -/

/-- Whether a pointer is taken to lead to one object. -/
def isJustPointer (t : CType) : Bool := t.isObjectPointer && !t.maybeArray && t.levels.length < 2

/-- Whether a returned value is read as an array. -/
def isReturnedArray (t : CType) : Bool :=
  t.isObjectPointer && !t.isJustPointer && !t.isArrayOfFunctionPointers && t.levels.length < 2 &&
    !t.baseIsVoid

/-- Whether a returned value is left unchecked: there is none, or it leads to functions. -/
def isUnchecked (t : CType) : Bool :=
  t.isVoid || t.isFunctionPointer || t.isArrayOfFunctionPointers

/-- The type as which a value is checked after the call: behind a pointer, that of the object. -/
def checkedType (t : CType) : CType :=
  if t.isObjectPointer then
    -- behind `void *` and pointers to functions one byte is all that can be compared
    if t.baseType.isUnchecked then smallest else t.baseType
  else t

/-! ### Assumed lengths -/

/-- The length that one level of the type is taken to have. -/
def levelLength (t : CType) (usage : Usage) : Level → Nat
  | .array length => length
  | .pointer => if t.levels.length ≤ 1 then usage.singleLength else usage.nestedLength

/-- The leading levels up to and including the first pointer. -/
def throughFirstPointer : List Level → List Level
  | [] => []
  | .pointer :: _ => [.pointer]
  | .array n :: rest => .array n :: throughFirstPointer rest

/-- **Assumed lengths.** One length for each level, outermost first. An object found by following
pointers is not followed further, so in lazy usage the list ends with the first pointer. -/
def arrayLengths (t : CType) (usage : Usage) : List Nat :=
  -- a pointer in an object of this kind is read as an address, so nothing below it is counted
  let counted := if usage = .lazy then throughFirstPointer t.levels else t.levels
  counted.map (t.levelLength usage)

/-- Outside lazy usage every level has one length. -/
theorem arrayLengths_eq_map {t : CType} {usage : Usage} (h : usage ≠ .lazy) :
    t.arrayLengths usage = t.levels.map (t.levelLength usage) := by
  simp [arrayLengths, h]

/-- Ending with the first pointer makes no list of levels longer. -/
theorem length_throughFirstPointer_le (levels : List Level) :
    (throughFirstPointer levels).length ≤ levels.length := by
  induction levels with
  | nil => exact Nat.le_refl 0
  | cons level rest ih =>
    cases level with
    -- here the list ends, whatever follows
    | pointer => exact Nat.succ_le_succ (Nat.zero_le _)
    | array n => exact Nat.succ_le_succ ih

/-- No type has more assumed lengths than levels. -/
theorem length_arrayLengths_le (t : CType) (usage : Usage) :
    (t.arrayLengths usage).length ≤ t.dimension := by
  unfold arrayLengths dimension
  rw [List.length_map]
  split
  · exact length_throughFirstPointer_le _
  · exact Nat.le_refl _

/-- **Array form.** The type with each pointer that has an assumed length replaced by an array of
that length. A pointer to one object becomes the object itself. -/
def arrayForm (t : CType) (usage : Usage) : CType :=
  if t.isJustPointer then t.baseType
  else
    match t.arrayLengths usage, t.levels with
    -- an outermost level that alone has a length, even an array, is counted as a single pointer
    | [_], _ :: rest => { t with levels := .array usage.singleLength :: rest }
    | lengths, levels => { t with levels := replacePointers levels lengths }
where
  /-- The levels with each pointer replaced by an array of the length at its place, if it has
  one. -/
  replacePointers : List Level → List Nat → List Level
    | .pointer :: levels, n :: lengths => .array n :: replacePointers levels lengths
    | level :: levels, _ :: lengths => level :: replacePointers levels lengths
    | levels, _ => levels

/-! ### Printing -/

/-- The length of an array level in brackets. -/
def lengthSuffix : Level → String
  | .pointer => ""
  | .array n => "[" ++ toString n ++ "]"

/-- **Printed name.** The base name, a blank and one star for each pointer if there are pointers,
and the length of each array in brackets. -/
def displayName (t : CType) : String :=
  -- stars stand together before all lengths, in whatever order the levels are
  let stars := t.levels.filter (· = .pointer)
  t.name ++ (if stars.isEmpty then "" else " " ++ String.ofList (stars.map fun _ => '*')) ++
    String.join (t.levels.map lengthSuffix)

end CType

end SymVec

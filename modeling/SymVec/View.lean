import SymVec.Literal.Number
import SymVec.Literal.Reference

/-!
# Value views

A decoded value is a tree. Its leaves hold literals; arrays, structures and unions hold the views of
their parts. Which member of a union is active cannot be told from its bytes, so the literal of a
union rebuilds it from its raw bytes, and its members are kept beside them as readings of the same
bytes.

* `View.literals_eq_map` — the literal of an array is made of the literals of its elements;
* `View.anySpecial_eq_any`, `View.anyMemberSpecial_eq_any` — a special value is looked for in all
  parts;
* `View.flatten_map_array` — opening arrays once puts their elements in a row.
-/

namespace SymVec

/-- A decoded value. -/
inductive View where
  | primitive (literal : String)
  /-- A string literal. -/
  | string (literal : String)
  /-- The name of a stub function. -/
  | functionPointer (literal : String)
  | enumerator (literal : String)
  /-- No value. -/
  | void
  | array (elements : List View)
  /-- A structure. `designated` tells whether its members are initialised by name, and `override` is
  a literal that stands for the whole of it. -/
  | struct (name : String) (fields : List (String × View)) (designated : Bool)
      (override : Option String)
  /-- A union: its raw bytes, and these bytes read as each of its members. -/
  | union (name : String) (bytes : View) (members : List (String × View))
  deriving Repr

namespace View

/-- Items between braces. -/
def braced (items : List String) : String := "\x7b" ++ ", ".intercalate items ++ "\x7d"

/-- The initializer of a member. Where members cannot be named, the name stands in a comment. -/
def initializer (designated : Bool) (name value : String) : String :=
  if name.isEmpty then value
  else if designated then s!".{name} = {value}"
  else s!"/*.{name} = */{value}"

/-! ### Literals -/

mutual

/-- **Literal.** The text that stands for the value in C. -/
def literal : View → String
  | .primitive text => text
  | .string text => text
  | .functionPointer text => text
  | .enumerator text => text
  | .void => ""
  | .array elements => braced (literals elements)
  | .struct _ fields designated override =>
    -- a structure without an initializer of its own is rebuilt from its bytes
    override.getD (braced (initializers designated fields))
  -- which member is active is not known, so none of them is written
  | .union name bytes _ => Literal.fromBytes name (literal bytes)

/-- The literals of several values. -/
def literals : List View → List String
  | [] => []
  | v :: rest => literal v :: literals rest

/-- The initializers of the members of a structure. -/
def initializers (designated : Bool) : List (String × View) → List String
  | [] => []
  | (name, v) :: rest => initializer designated name (literal v) :: initializers designated rest

end

/-- The literals of several values, one after another. -/
theorem literals_eq_map (vs : List View) : literals vs = vs.map literal := by
  induction vs with
  | nil => rfl
  | cons v rest ih => simp [literals, ih]

/-! ### Parts -/

/-- The views of the parts. The raw bytes of a union are not among them. -/
def children : View → List View
  | .array elements => elements
  | .struct _ fields _ _ => fields.map (·.2)
  | .union _ _ members => members.map (·.2)
  | _ => []

/-- Whether the view has no parts by its nature. -/
def isLeaf : View → Bool
  | .array _ => false
  | .struct _ _ _ _ => false
  | .union _ _ _ => false
  | _ => true

/-- The first member of a structure or union with the given name. -/
def member? (v : View) (name : String) : Option View :=
  match v with
  | .struct _ fields _ _ => fields.lookup name
  | .union _ _ members => members.lookup name
  | _ => none

mutual

/-- Whether a floating-point number that is not finite occurs in the value. -/
def hasSpecial : View → Bool
  | .primitive text => Literal.isSpecial text
  | .array elements => anySpecial elements
  | .struct _ fields _ _ => anyMemberSpecial fields
  -- the members read the same bytes, and any of them may be the active one
  | .union _ _ members => anyMemberSpecial members
  | _ => false

/-- `hasSpecial` of any of several values. -/
def anySpecial : List View → Bool
  | [] => false
  | v :: rest => hasSpecial v || anySpecial rest

/-- `hasSpecial` of any of several members. -/
def anyMemberSpecial : List (String × View) → Bool
  | [] => false
  | (_, v) :: rest => hasSpecial v || anyMemberSpecial rest

end

/-- Special values are looked for in each of several values. -/
theorem anySpecial_eq_any (vs : List View) : anySpecial vs = vs.any hasSpecial := by
  induction vs with
  | nil => rfl
  | cons v rest ih => simp [anySpecial, ih]

/-- Special values are looked for in each member, whatever its name is. -/
theorem anyMemberSpecial_eq_any (fields : List (String × View)) :
    anyMemberSpecial fields = (fields.map (·.2)).any hasSpecial := by
  induction fields with
  | nil => rfl
  | cons f rest ih => simp [anyMemberSpecial, ih]

/-! ### Nested arrays -/

/-- How many arrays are nested in each other at the start of the value. -/
def arrayDepth : View → Nat
  | .array [] => 1
  | .array (first :: _) => 1 + arrayDepth first
  | _ => 0

mutual

/-- The number of values in nested arrays that are no arrays. -/
def leafCount : View → Nat
  | .array elements => leafCounts elements
  | _ => 1

/-- The leaf counts of several values together. -/
def leafCounts : List View → Nat
  | [] => 0
  | v :: rest => leafCount v + leafCounts rest

end

/-- The values `depth` arrays below the given ones, in order. A value that is no array stays. -/
def flatten : (depth : Nat) → List View → List View
  | 0, vs => vs
  | depth + 1, vs =>
    flatten depth (vs.flatMap fun v =>
      match v with
      | .array elements => elements
      | other => [other])

/-- An array around the values is opened first. -/
theorem flatten_array (depth : Nat) (vs : List View) :
    flatten (depth + 1) [.array vs] = flatten depth vs := by
  simp [flatten]

/-- Opening arrays once puts their elements in a row. -/
theorem flatten_map_array (depth : Nat) (groups : List (List View)) :
    flatten (depth + 1) (groups.map .array) = flatten depth groups.flatten := by
  rw [flatten, List.flatMap_map]
  simp

/-- Values that are no arrays stay. -/
theorem flatten_of_plain {vs : List View} (h : ∀ v ∈ vs, ∀ elements, v ≠ .array elements)
    (depth : Nat) : flatten depth vs = vs := by
  induction depth with
  | zero => rfl
  | succ depth ih =>
    -- opening changes none of these values, so neither does opening them `depth` times
    have hsame : ∀ v ∈ vs, (match v with
        | .array elements => elements
        | other => [other]) = [v] := by
      intro v hv
      cases v with
      | array elements => exact absurd rfl (h _ hv elements)
      | _ => rfl
    have honce : (vs.flatMap fun v =>
        match v with
        | .array elements => elements
        | other => [other]) = vs := by
      rw [List.flatMap_def, List.map_congr_left hsame, ← List.flatMap_def]
      exact List.flatMap_singleton' vs
    rw [flatten, honce, ih]

end View

end SymVec

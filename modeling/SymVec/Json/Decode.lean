import SymVec.Json.Basic
import SymVec.Word

/-!
# Data from JSON values

How numbers, lists, records and choices are taken from JSON values.

A record is an object, whose unknown members are skipped and whose known members must not be
repeated, or an array of the first of its members in their order. A choice is a string, or an object
with one member if it carries a value.

* `Json.natural?` — machine words, in which sizes, offsets and addresses are given;
* `Json.record?` — the members of a record, by which `required?`, `orElse?` and `maybe?` find them;
* `Json.plainChoice?` — a choice by one of the given names.
-/

namespace SymVec.Json

/-! ### Plain values -/

/-- A natural number below `bound`. -/
def naturalBelow? (bound : Nat) : Json → Option Nat
  | .integer n => if 0 ≤ n ∧ n < bound then some n.toNat else none
  | _ => none

/-- A machine word. -/
def natural? (j : Json) : Option Nat := j.naturalBelow? Word.limit

/-- A byte. -/
def byte? (j : Json) : Option UInt8 := (j.naturalBelow? 256).map UInt8.ofNat

/-- A signed integer of 64 bits. -/
def signed? : Json → Option Int
  | .integer n => if -0x8000000000000000 ≤ n ∧ n < 0x8000000000000000 then some n else none
  | _ => none

def boolean? : Json → Option Bool
  | .boolean b => some b
  | _ => none

def text? : Json → Option String
  | .string s => some s
  | _ => none

/-- A list, all of whose items can be taken. -/
def list? {α : Type} (item? : Json → Option α) : Json → Option (List α)
  | .array items => items.mapM item?
  | _ => none

/-- A value that may be left out by writing `null`. -/
def optional? {α : Type} (value? : Json → Option α) : Json → Option (Option α)
  | .null => some none
  | j => (value? j).map some

/-- Named values, all of which can be taken. -/
def named? {α : Type} (value? : Json → Option α) : Json → Option (List (String × α))
  | .object members => members.mapM fun m => (value? m.2).map fun a => (m.1, a)
  | _ => none

/-! ### Records -/

/-- The members of a record by name. -/
abbrev Members := List (String × Json)

/-- **Record** with the given members. -/
def record? (names : List String) : Json → Option Members
  | .object members =>
    -- names that are not known may be repeated, known ones may not
    let known := members.filter fun m => names.contains m.1
    if (known.map (·.1)).Nodup then some known else none
  -- by position, and a member missing at the end is one that is not given
  | .array items => if items.length ≤ names.length then some (names.zip items) else none
  | _ => none

namespace Members

/-- A member that must be there. -/
def required? {α : Type} (members : Members) (name : String) (value? : Json → Option α) :
    Option α :=
  (members.lookup name).bind value?

/-- A member that may be missing, and then has the value `default`. -/
def orElse? {α : Type} (members : Members) (name : String) (default : α)
    (value? : Json → Option α) : Option α :=
  match members.lookup name with
  | some j => value? j
  | none => some default

/-- A member that may be missing or `null`. -/
def maybe? {α : Type} (members : Members) (name : String) (value? : Json → Option α) :
    Option (Option α) :=
  members.orElse? name none (optional? value?)

end Members

/-! ### Choices -/

/-- **Choice**: its name, and the value that it carries if one is given. -/
def choice? : Json → Option (String × Option Json)
  | .string name => some (name, none)
  | .object [(name, value)] => some (name, some value)
  | _ => none

/-- A choice that carries nothing, among those named. -/
def plainChoice? {α : Type} (choices : List (String × α)) (j : Json) : Option α :=
  match j.choice? with
  | some (name, none) => choices.lookup name
  -- a choice without a value may be written as one that carries `null`
  | some (name, some .null) => choices.lookup name
  | _ => none

/-! ### Building values -/

/-- A natural number. -/
def ofNatural (n : Nat) : Json := .integer n

/-- A value, or `null`. -/
def ofOption {α : Type} (toJson : α → Json) : Option α → Json
  | some a => toJson a
  | none => .null

/-- A list. -/
def ofList {α : Type} (toJson : α → Json) (xs : List α) : Json := .array (xs.map toJson)

end SymVec.Json

/-!
# Literals for pointers, raw bytes and stubs

What stands for a value that has no literal of its own: an address, a reference to a named object, a
value rebuilt from its bytes, a cast to an enumeration, the name of a stub function.
-/

namespace SymVec.Literal

/-- The null pointer. -/
def null : String := "NULL"

/-- One star for each level of a pointer, and at least one. -/
def stars (dimension : Nat) : String := String.ofList (List.replicate (max dimension 1) '*')

/-- The cast of a reference to a named object. -/
def referenceCast (base : String) (dimension : Nat) : String := s!"({base} {stars dimension})"

/-- **Address.** Zero is the null pointer. -/
def address (value : Nat) (base : String) (dimension : Nat) : String :=
  if value = 0 then null
  else referenceCast base dimension ++ " 0x" ++ String.ofList (Nat.toDigits 16 value)

/-- The value of the named type that has these bytes. -/
def fromBytes (type bytes : String) : String := s!"from_bytes<{type}>({bytes})"

/-- A value that its enumeration does not name. -/
def enumerationCast (name : String) (value : Int) : String := s!"(enum {name})({value})"

/-- The stub for a parameter that is a function pointer. An empty scope is left out. -/
def parameterStub (scope : Option String) (method parameter : String) : String :=
  match scope with
  | some scope =>
    if scope.isEmpty then s!"{method}_{parameter}_stub" else s!"{scope}_{method}_{parameter}_stub"
  | none => s!"{method}_{parameter}_stub"

/-- The stub for a member that is a function pointer. -/
def fieldStub (record field : String) : String := s!"{record}_{field}_stub"

end SymVec.Literal

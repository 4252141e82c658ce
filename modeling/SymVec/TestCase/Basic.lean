import SymVec.LazySearch
import SymVec.Method

/-!
# Test cases

What a test vector becomes: the values before and after the call, what the call returned, and what
has to be declared and assigned besides.
-/

namespace SymVec

/-- The suite that a test case belongs to. -/
inductive Suite where
  | regression
  | error
  deriving DecidableEq, Repr

/-- The name of a suite. -/
def Suite.name : Suite → String
  | regression => "regression"
  | error => "error"

/-- A decoded value with the variable that holds it. -/
structure NamedValue where
  name : String
  type : CType
  alignment : Option Nat := none
  view : View

/-- A decoded test case. -/
structure TestCase where
  /-- Its number among the cases that are kept. -/
  index : Nat
  suite : Suite
  parameters : List NamedValue
  /-- What parameters lead to after the call. -/
  parametersAfter : List NamedValue
  globals : List NamedValue
  globalsAfter : List NamedValue
  receiver : Option NamedValue
  receiverAfter : Option NamedValue
  returned : NamedValue
  /-- The values that stubs returned. -/
  stubs : List NamedValue
  /-- The values that functions behind function pointer parameters returned. -/
  stubParameters : List NamedValue
  stdin : Option NamedValue
  references : List Reference
  /-- The objects to be declared before the parameters. -/
  lazyObjects : List LazyDeclaration
  errorDescriptors : List String

/-- The first parameter of that name. -/
def TestCase.parameter? (c : TestCase) (name : String) : Option NamedValue :=
  c.parameters.find? (·.name = name)

end SymVec

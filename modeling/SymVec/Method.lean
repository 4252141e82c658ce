import SymVec.Catalog
import SymVec.CType.Basic

/-!
# Functions under test

The signature of the function whose runs the test vectors record, and what around it takes part in a
run: its receiver, global variables, stubs and standard input.
-/

namespace SymVec

/-- A parameter, global variable or receiver. -/
structure Parameter where
  name : String
  type : CType
  /-- The alignment it is declared with. -/
  alignment : Option Nat := none
  deriving DecidableEq, Repr

namespace Parameter

/-- Whether a call can change what the parameter leads to. -/
def isChangeable (p : Parameter) : Bool :=
  -- a value is copied into the call, so only what a pointer leads to can change
  p.type.isObjectPointer && !p.type.isConst && !p.type.isFunction

/-- Whether the parameter leads to functions, directly or through a pointer. -/
def isFunctionPointer (p : Parameter) : Bool :=
  p.type.isFunctionPointer || p.type.isArrayOfFunctionPointers

/-- The type as which the object of the parameter is decoded: behind a pointer to one object, its
own. -/
def objectType (p : Parameter) : CType :=
  if p.type.isJustPointer then p.type.baseType else p.type

end Parameter

/-- The function under test. -/
structure Method where
  name : String
  /-- The class that it belongs to. -/
  scope : Option String := none
  /-- The object on which it is called. -/
  receiver : Option Parameter := none
  parameters : List Parameter := []
  returnType : CType := .void
  globals : List Parameter := []
  /-- The types that stub functions return. -/
  stubs : Catalog (Prod.fst : String × CType → String) := .empty
  /-- The types that functions behind function pointer parameters return. -/
  functionPointers : Catalog (Prod.fst : String × CType → String) := .empty
  /-- Whether standard input is symbolic. -/
  symbolicStdin : Bool := false

/-- What a predicate on the returned value is made of. -/
structure PredicateTexts where
  operator : String
  expected : String
  validation : String
  deriving DecidableEq, Repr

/-- Which test cases are kept, and for what. -/
structure Filters where
  /-- Only paths that reached what was aimed at. -/
  pathFlag : Bool := false
  /-- All cases are to be tests that fail. -/
  forAssert : Bool := false
  predicate : Option PredicateTexts := none
  deriving DecidableEq, Repr

end SymVec

import SymVec.Decoder.Basic
import SymVec.Exchange.Layout
import SymVec.Method

/-!
# Functions and settings as JSON

The exchange form of functions under test, decoding limits and filters.
-/

namespace SymVec

open Json (ofList ofNatural ofOption)

/-- A parameter. Its name and type must be given. -/
def Parameter.ofJson? (j : Json) : Option Parameter := do
  let ms ← j.record? ["name", "type", "alignment"]
  let name ← ms.required? "name" Json.text?
  let type ← ms.required? "type" CType.ofJson?
  let alignment ← ms.maybe? "alignment" Json.natural?
  pure ⟨name, type, alignment⟩

/-- A parameter, with `null` for an alignment that is not declared. -/
def Parameter.toJson (p : Parameter) : Json :=
  .object
    [("name", .string p.name), ("type", p.type.toJson),
      ("alignment", ofOption ofNatural p.alignment)]

/-- Types by name; later ones replace earlier ones of their name. -/
def namedTypes? (j : Json) : Option (Catalog (Prod.fst : String × CType → String)) :=
  (j.named? CType.ofJson?).map .ofList

/-- Types by name as an object. -/
def namedTypesToJson (types : Catalog (Prod.fst : String × CType → String)) : Json :=
  .object (types.toList.map fun p => (p.1, p.2.toJson))

/-- A function. Its name must be given; it returns nothing if nothing else is said. -/
def Method.ofJson? (j : Json) : Option Method := do
  -- the order of the names is that of a record written as an array
  let ms ← j.record?
    ["name", "scope", "class_object", "params", "return_type", "globals", "stubs",
      "function_pointers", "symbolic_stdin"]
  let name ← ms.required? "name" Json.text?
  let scope ← ms.maybe? "scope" Json.text?
  let receiver ← ms.maybe? "class_object" Parameter.ofJson?
  let parameters ← ms.orElse? "params" [] (Json.list? Parameter.ofJson?)
  let returnType ← ms.orElse? "return_type" .void CType.ofJson?
  let globals ← ms.orElse? "globals" [] (Json.list? Parameter.ofJson?)
  let stubs ← ms.orElse? "stubs" .empty namedTypes?
  let functionPointers ← ms.orElse? "function_pointers" .empty namedTypes?
  let symbolicStdin ← ms.orElse? "symbolic_stdin" false Json.boolean?
  pure
    { name, scope, receiver, parameters, returnType, globals, stubs, functionPointers,
      symbolicStdin }

/-- A function with everything that takes part in its runs. -/
def Method.toJson (m : Method) : Json :=
  .object
    [("name", .string m.name), ("scope", ofOption .string m.scope),
      ("class_object", ofOption Parameter.toJson m.receiver),
      ("params", ofList Parameter.toJson m.parameters), ("return_type", m.returnType.toJson),
      ("globals", ofList Parameter.toJson m.globals), ("stubs", namedTypesToJson m.stubs),
      ("function_pointers", namedTypesToJson m.functionPointers),
      ("symbolic_stdin", .boolean m.symbolicStdin)]

/-- The limits. Each may be left out, and then has its usual value. -/
def Config.ofJson? (j : Json) : Option Config := do
  let ms ← j.record? ["max_depth", "symbolic_stdin_size"]
  let maxDepth ← ms.orElse? "max_depth" 32 Json.natural?
  let stdinCapacity ← ms.orElse? "symbolic_stdin_size" 64 Json.natural?
  pure ⟨maxDepth, stdinCapacity⟩

/-- The limits. -/
def Config.toJson (c : Config) : Json :=
  .object
    [("max_depth", ofNatural c.maxDepth), ("symbolic_stdin_size", ofNatural c.stdinCapacity)]

/-- The texts of a predicate, all of which must be given. -/
def PredicateTexts.ofJson? (j : Json) : Option PredicateTexts := do
  let ms ← j.record? ["op", "expected", "validation"]
  let operator ← ms.required? "op" Json.text?
  let expected ← ms.required? "expected" Json.text?
  let validation ← ms.required? "validation" Json.text?
  pure ⟨operator, expected, validation⟩

/-- Filters. What is left out does not filter. -/
def Filters.ofJson? (j : Json) : Option Filters := do
  let ms ← j.record? ["path_flag", "for_assert", "predicate"]
  let pathFlag ← ms.orElse? "path_flag" false Json.boolean?
  let forAssert ← ms.orElse? "for_assert" false Json.boolean?
  let predicate ← ms.maybe? "predicate" PredicateTexts.ofJson?
  pure ⟨pathFlag, forAssert, predicate⟩

end SymVec

import SymVec.Exchange.Method
import SymVec.Exchange.Vector
import SymVec.Json.Reader

/-!
# Bundles

Everything that decoding needs in one JSON text: the layouts, the function under test, its test
vectors and the limits.
-/

namespace SymVec

/-- A bundle of decoding input. -/
structure Bundle where
  types : Registry := {}
  method : Method
  vectors : List TestVector := []
  config : Option Config := none

namespace Bundle

/-- A bundle, of which only the function must be given. -/
def ofJson? (j : Json) : Option Bundle := do
  let ms ← j.record? ["types", "method", "vectors", "config"]
  let types ← ms.orElse? "types" {} Registry.ofJson?
  let method ← ms.required? "method" Method.ofJson?
  let vectors ← ms.orElse? "vectors" [] (Json.list? TestVector.ofJson?)
  -- limits that are not set here can still be set by the command line
  let config ← ms.maybe? "config" Config.ofJson?
  pure ⟨types, method, vectors, config⟩

/-- A bundle, with `null` for limits that are not set. -/
def toJson (b : Bundle) : Json :=
  .object
    [("types", b.types.toJson), ("method", b.method.toJson),
      ("vectors", Json.ofList TestVector.toJson b.vectors),
      ("config", Json.ofOption Config.toJson b.config)]

/-- **Reading** of the text of a bundle. -/
def read? (text : String) : Option Bundle := (Json.read? text).bind ofJson?

end Bundle

end SymVec

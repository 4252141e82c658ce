import SymVec.Exchange.Layout
import SymVec.TestCase.Basic

/-!
# Views and test cases as JSON

The exchange form of what is decoded. A view is an object that begins with its kind.
-/

namespace SymVec

open Json (ofList ofNatural ofOption)

namespace View

/-- A view that is a literal. -/
def literalToJson (kind text : String) : Json :=
  .object [("kind", .string kind), ("literal", .string text)]

mutual

/-- A view with its kind, and its parts as views. -/
def toJson : View → Json
  | .primitive text => literalToJson "primitive" text
  | .string text => literalToJson "string" text
  | .functionPointer text => literalToJson "function_pointer" text
  | .enumerator text => literalToJson "enum" text
  | .void => .object [("kind", .string "void")]
  | .array elements =>
    .object [("kind", .string "array"), ("elements", .array (elementsToJson elements))]
  | .struct name fields designated override =>
    .object
      ([("kind", .string "struct"), ("name", .string name),
          ("fields", .array (membersToJson fields)), ("c_like", .boolean designated)] ++
        -- a structure without such a literal has no member for it
        match override with
        | some text => [("override_literal", .string text)]
        | none => [])
  | .union name bytes members =>
    .object
      [("kind", .string "union"), ("name", .string name), ("bytes", toJson bytes),
        ("members", .array (membersToJson members))]

/-- The views of several values. -/
def elementsToJson : List View → List Json
  | [] => []
  | v :: rest => toJson v :: elementsToJson rest

/-- The views of members, each beside its name. -/
def membersToJson : List (String × View) → List Json
  | [] => []
  | (name, v) :: rest =>
    .object [("name", .string name), ("view", toJson v)] :: membersToJson rest

end

end View

/-- A value with its variable. An alignment that is not declared is left out. -/
def NamedValue.toJson (value : NamedValue) : Json :=
  let alignment :=
    match value.alignment with
    | some a => [("alignment", ofNatural a)]
    | none => []
  .object
    ([("name", .string value.name), ("type", value.type.toJson)] ++ alignment ++
      [("view", value.view.toJson)])

/-- A reference: the path that is set, and what it is set to. -/
def Reference.toJson (r : Reference) : Json :=
  .object
    [("variable", .string r.path), ("referenced", .string r.referenced),
      ("cast", .string r.cast)]

/-- A lazy object with the root from which it was reached. -/
def LazyDeclaration.toJson (o : LazyDeclaration) : Json :=
  .object
    [("name", .string o.name), ("type", o.type.toJson), ("view", o.view.toJson),
      ("root", .string o.root)]

/-- A test case, its values in the same groups as they are kept. -/
def TestCase.toJson (c : TestCase) : Json :=
  .object
    [("index", ofNatural c.index), ("suite", .string c.suite.name),
      ("params", ofList NamedValue.toJson c.parameters),
      ("param_post_values", ofList NamedValue.toJson c.parametersAfter),
      ("globals_pre", ofList NamedValue.toJson c.globals),
      ("globals_post", ofList NamedValue.toJson c.globalsAfter),
      ("class_pre", ofOption NamedValue.toJson c.receiver),
      ("class_post", ofOption NamedValue.toJson c.receiverAfter),
      ("return_value", c.returned.toJson), ("stubs", ofList NamedValue.toJson c.stubs),
      ("stub_params", ofList NamedValue.toJson c.stubParameters),
      ("stdin", ofOption NamedValue.toJson c.stdin),
      ("references", ofList Reference.toJson c.references),
      ("lazy", ofList LazyDeclaration.toJson c.lazyObjects),
      ("error_descriptors", ofList .string c.errorDescriptors)]

end SymVec

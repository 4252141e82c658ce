import SymVec.TestCase.Basic

/-!
# Listing of test cases

A test case as text: a heading, and under it a section for each group of values that has any. First
come the values before the call, then what is expected, and last the values after the call.
-/

namespace SymVec.TestCase

/-- The declaration of a value. -/
def declaration (value : NamedValue) : String :=
  let alignment :=
    match value.alignment with
    | some a => s!"alignas({a}) "
    | none => ""
  s!"    {alignment}{value.type.displayName} {value.name} = {value.view.literal};\n"

/-- The declaration of a lazy object, with the variable from which it was reached. -/
def lazyDeclaration (o : LazyDeclaration) : String :=
  s!"    {o.type.displayName} {o.name} = {o.view.literal};  // reached from {o.root}\n"

/-- The assignment of a reference. -/
def assignment (r : Reference) : String := s!"    {r.path} = {r.literal};\n"

/-- A title with its lines, or nothing if there are no lines. -/
def titled (title : String) (lines : List String) : String :=
  if lines.isEmpty then "" else s!"  {title}:\n" ++ String.join lines

/-- A title with the declarations of values. -/
def declarationSection (title : String) (values : List NamedValue) : String :=
  titled title (values.map declaration)

/-- The line of the expected value, unless there is none. -/
def expectedLine : View → String
  | .void => ""
  | view => s!"  expected: {view.literal}\n"

/-- **Listing** of a test case. -/
def listing (c : TestCase) : String :=
  String.join
    [s!"test case #{c.index} ({c.suite.name})\n",
      titled "lazy objects" (c.lazyObjects.map lazyDeclaration),
      declarationSection "this" c.receiver.toList,
      declarationSection "params" c.parameters,
      declarationSection "globals" c.globals,
      declarationSection "stdin" c.stdin.toList,
      declarationSection "stubs" c.stubs,
      declarationSection "function pointer stubs" c.stubParameters,
      titled "references" (c.references.map assignment),
      expectedLine c.returned.view,
      declarationSection "params after call" c.parametersAfter,
      declarationSection "globals after call" c.globalsAfter,
      declarationSection "this after call" c.receiverAfter.toList,
      String.join (c.errorDescriptors.map fun text => s!"  error: {text}\n")]

end SymVec.TestCase

import SymVec.TestCase.Values

/-!
# Assembly of test cases

One test case is made of each test vector that has one and that the filters keep. An error that
concerns one case gives up that case only, with a warning.

* `TestCase.Assembly.decodeVariables` — the variables of a test vector, in order;
* `TestCase.Assembly.draft` — the case of one test vector, if it has one that the filters keep;
* `TestCase.Assembly.assemble` — the cases of all test vectors, numbered, with the warnings;
* `TestCase.Assembly.isCaseLocal_of_assemble` — only a bad configuration stops the assembly.
-/

namespace SymVec.TestCase

/-- What test cases are assembled from besides the test vectors. -/
structure Assembly where
  registry : Registry := {}
  config : Config := {}
  method : Method
  filters : Filters := {}

namespace Assembly

variable (a : Assembly)

/-- The predicate of the filters, if they have one. -/
def predicate? : Except DecodeError (Option Predicate) :=
  match a.filters.predicate with
  | none => .ok none
  | some texts =>
    (Predicate.make texts.operator texts.expected texts.validation).map some

/-- The type of the returned value. A comparison as text takes it for a C string. -/
def returnType (predicate : Option Predicate) : CType :=
  match predicate with
  | some p => if p.validation = .string then .cString else a.method.returnType
  | none => a.method.returnType

/-- Whether a test vector has values to make a case of: any object, or one besides that of the
returned value if there is one. A function without parameters needs none. -/
def carriesValues (returnType : CType) (v : TestVector) : Bool :=
  -- a recorded result alone tells nothing about the call
  let needed := if returnType.isUnchecked then 0 else 1
  decide (needed < v.objects.length) || a.method.parameters.isEmpty

/-- The decoder of one test case. -/
def decoder (table : AddressTable) : Decoder where
  registry := a.registry
  config := a.config
  table := table
  method := a.method.name
  scope := a.method.scope

/-- The returned value with what the predicate expects, or none if the predicate does not hold.
Compared text stays as it was decoded. -/
def applyPredicate (predicate : Option Predicate) (returned : NamedValue) :
    Except DecodeError (Option NamedValue) :=
  match predicate with
  | none => .ok (some returned)
  | some p =>
    -- the literal as it was decoded is compared, before anything replaces it
    (p.holds returned.view.literal).map fun holds =>
      if !holds then none
      else if p.validation = .string then some returned
      else some { returned with view := .primitive p.expectedLiteral }

/-- The returned value, null where a pointer was proven to be null. -/
def applyNullness (returnType : CType) (notNull : Option String) (returned : NamedValue) :
    NamedValue :=
  if notNull = some "0" && returnType.isObjectPointer && !returnType.isReturnedArray then
    { returned with view := .primitive Literal.null }
  else returned

/-- The variables from which lazy objects are searched. -/
def roots (returnType : CType) : List Root :=
  -- globals and the receiver are no roots
  let parameters := a.method.parameters.filter fun p => !p.isFunctionPointer
  parameters.map (fun p => ⟨p.name, p.type⟩) ++
    if returnType.isUnchecked then [] else [⟨resultName, returnType⟩]

/-- The suite of a case. -/
def suite (v : TestVector) : Suite :=
  if v.status = .failed || a.filters.forAssert then .error else .regression

/-- What decoding the variables of a test vector yields, before the filters are applied. -/
structure Variables where
  receiver : Option NamedValue × Option NamedValue
  parameters : List (NamedValue × Option NamedValue)
  globals : List (NamedValue × NamedValue)
  stdin : Option NamedValue
  stubs : List (Option NamedValue)
  returned : NamedValue
  pathFlag : Option String
  notNull : Option String

/-- The variables of a test vector, in the order in which they are decoded. -/
def decodeVariables (d : Decoder) (v : TestVector) (returnType : CType) : Traced Variables := do
  let receiver ← receiverValues d v a.method.receiver
  let parameters ← a.method.parameters.mapM (parameterValues d v)
  let globals ← a.method.globals.mapM (globalValues d v)
  let stdin ← if a.method.symbolicStdin then stdinValue d v else pure none
  -- every object is looked at, for stubs are known by the names of their objects
  let stubs ← v.objects.mapM (stubValue d a.method)
  let returned ← returnedValue d v returnType
  let pathFlag ← flagLiteral d v pathFlagName
  let notNull ← flagLiteral d v notNullName
  pure ⟨receiver, parameters, globals, stdin, stubs, returned, pathFlag, notNull⟩

/-- The case of decoded variables, with what has to be declared besides. -/
def completeCase (d : Decoder) (v : TestVector) (g : ObjectGraph v) (returnType : CType)
    (vars : Variables) (returned : NamedValue) : Traced TestCase := do
  -- after the filters, so a case that they drop has no errors from here on
  let lazyObjects ← LazySearch.declarations d g (a.roots returnType)
  let functions := a.method.parameters.filter (·.isFunctionPointer)
  let stubParameters ← functions.mapM (stubParameterValue d v a.method)
  pure
    { index := 0
      suite := a.suite v
      parameters := vars.parameters.map (·.1)
      parametersAfter := vars.parameters.filterMap (·.2)
      globals := vars.globals.map (·.1)
      globalsAfter := vars.globals.map (·.2)
      receiver := vars.receiver.1
      receiverAfter := vars.receiver.2
      -- nullness comes last and also replaces what a predicate expects
      returned := applyNullness returnType vars.notNull returned
      stubs := vars.stubs.filterMap id
      stubParameters := stubParameters.filterMap id
      stdin := vars.stdin
      -- filled in when the case is complete, for all steps report them
      references := []
      lazyObjects := lazyObjects
      errorDescriptors := v.errorDescriptors }

/-- The case of decoded variables, if the filters keep it. -/
def selectCase (d : Decoder) (v : TestVector) (g : ObjectGraph v) (predicate : Option Predicate)
    (vars : Variables) : Traced (Option TestCase) :=
  -- a path that records no flag is dropped too
  if a.filters.pathFlag && vars.pathFlag != some "1" then pure none
  else do
    match ← Traced.ofExcept (applyPredicate predicate vars.returned) with
    | none => pure none
    | some returned => some <$> a.completeCase d v g (a.returnType predicate) vars returned

/-- The case of a test vector, still without a number and without its references. -/
def draft (predicate : Option Predicate) (v : TestVector) : Traced (Option TestCase) :=
  if !a.carriesValues (a.returnType predicate) v then pure none
  else do
    let g ← Traced.ofExcept (ObjectGraph.build v a.registry.pointerSize)
    let d := a.decoder g.table
    let vars ← a.decodeVariables d v (a.returnType predicate)
    a.selectCase d v g predicate vars

/-! ### All test vectors -/

/-- What one test vector contributes. -/
inductive Contribution where
  | case (c : TestCase)
  /-- Nothing, and no reason to complain. -/
  | nothing
  | skipped (error : DecodeError)
  /-- An error that concerns all cases. -/
  | stop (error : DecodeError)

/-- The contribution of a decoded test vector. -/
def contribution (t : Traced (Option TestCase)) : Contribution :=
  match t.outcome with
  | .ok (some c) => .case { c with references := t.references }
  | .ok none => .nothing
  | .error e => if e.isCaseLocal then .skipped e else .stop e

/-- The cases of test vectors, of which the first has the number `position` among all vectors,
numbered from `made` on, and the warnings. -/
def run (predicate : Option Predicate) (position made : Nat) :
    List TestVector → Except DecodeError (List TestCase) × List Warning
  | [] => (.ok [], [])
  | v :: rest =>
    let t := a.draft predicate v
    -- only a kept case takes up a number, but every vector takes up a position
    match contribution t with
    | .case c =>
      let (cases, warnings) := run predicate (position + 1) (made + 1) rest
      (cases.map ({ c with index := made } :: ·), t.warnings ++ warnings)
    | .nothing =>
      let (cases, warnings) := run predicate (position + 1) made rest
      (cases, t.warnings ++ warnings)
    | .skipped e =>
      let (cases, warnings) := run predicate (position + 1) made rest
      (cases, t.warnings ++ .skippedCase a.method.name position e :: warnings)
    | .stop e => (.error e, t.warnings)

/-- **Assembly** of the cases of all test vectors, with the warnings. -/
def assemble (vectors : List TestVector) : Except DecodeError (List TestCase) × List Warning :=
  match a.predicate? with
  | .error e => (.error e, [])
  | .ok predicate => a.run predicate 0 0 vectors

/-- What stops the assembly is no error of a single case. -/
theorem isCaseLocal_of_contribution {t : Traced (Option TestCase)} {e : DecodeError}
    (h : contribution t = .stop e) : e.isCaseLocal = false := by
  unfold contribution at h
  split at h
  · cases h
  · cases h
  · split at h
    · cases h
    · next hlocal =>
      cases h
      simpa using hlocal

/-- A run over test vectors is stopped by no error of a single case. -/
theorem isCaseLocal_of_run {a : Assembly} {predicate : Option Predicate} {position made : Nat}
    {vectors : List TestVector} {e : DecodeError}
    (h : (a.run predicate position made vectors).1 = .error e) : e.isCaseLocal = false := by
  induction vectors generalizing position made with
  | nil => simp [run] at h
  | cons v rest ih =>
    cases hc : contribution (a.draft predicate v) with
    | case c =>
      simp only [run, hc] at h
      cases hrest : (a.run predicate (position + 1) (made + 1) rest).1 with
      | error e' =>
        rw [hrest] at h
        cases h
        exact ih hrest
      | ok cases =>
        rw [hrest] at h
        cases h
    | nothing =>
      simp only [run, hc] at h
      exact ih h
    | skipped _ =>
      simp only [run, hc] at h
      exact ih h
    -- this vector stops the run, whatever the others are
    | stop e' =>
      simp only [run, hc] at h
      cases h
      exact isCaseLocal_of_contribution hc

/-- Only a bad configuration stops the assembly. -/
theorem isCaseLocal_of_assemble {a : Assembly} {vectors : List TestVector} {e : DecodeError}
    (h : (a.assemble vectors).1 = .error e) : e.isCaseLocal = false := by
  unfold assemble at h
  split at h
  · next e' hp =>
    cases h
    -- the predicate cannot be made, which is a bad configuration
    unfold predicate? at hp
    split at hp
    · cases hp
    · next texts _ =>
      cases hm : Predicate.make texts.operator texts.expected texts.validation with
      | error e' =>
        rw [hm] at hp
        cases hp
        exact Predicate.make_error hm
      | ok p =>
        rw [hm] at hp
        cases hp
  · exact isCaseLocal_of_run h

end Assembly

end SymVec.TestCase

import SymVec.Predicate
import SymVec.TestCase.Basic

/-!
# Values of a test case

The objects of a test vector that belong to the variables of a function, decoded. The object of a
variable has its name, and what it holds after the call is recorded under the name with `_post` at
its end. Some objects must be recorded, and others may be missing.

* `TestCase.named?`, `TestCase.required` — an object that may be missing, and one that may not;
* `TestCase.stdinValue` — the bytes of symbolic standard input as a string;
* `TestCase.name_of_named?` — a decoded value has the name asked for.
-/

namespace SymVec.TestCase

/-- The name of the object that holds the returned value. -/
def resultName : String := "utbot_result"

/-- The name of the object that tells whether a returned pointer was proven not to be null. -/
def notNullName : String := "utbot_return_not_null"

/-- The name of the object that tells whether the path reached what was aimed at. -/
def pathFlagName : String := "kleePathFlagSymbolic"

/-- The name of the contents of symbolic standard input. -/
def stdinName : String := "stdin"

/-- The name of the number of bytes read from symbolic standard input. -/
def stdinReadName : String := "stdin-read"

/-- The variable that holds decoded standard input. -/
def stdinVariable : String := "stdin_buf"

/-- The ending of the name of an object that records the values of a stub. -/
def symbolicEnding : String := "_symbolic"

/-- The name of the object that holds a variable's value after the call. -/
def afterName (name : String) : String := name ++ "_post"

variable (d : Decoder) (v : TestVector)

/-- The decoded object of that name, if it is recorded. -/
def named? (name : String) (t : CType) (alignment : Option Nat) (usage : Usage) :
    Traced (Option NamedValue) :=
  match v.contents? name with
  | none => pure none
  | some bytes => do
    let view ← d.decode bytes t usage name
    pure (some ⟨name, t, alignment, view⟩)

/-- The decoded object of that name, which must be recorded. -/
def required (name : String) (t : CType) (alignment : Option Nat) (usage : Usage) :
    Traced NamedValue := do
  match ← named? d v name t alignment usage with
  | some value => pure value
  | none => .fail (.missingObject name)

/-! ### Variables -/

/-- The receiver before and, if it is recorded, after the call. -/
def receiverValues (receiver : Option Parameter) :
    Traced (Option NamedValue × Option NamedValue) :=
  match receiver with
  | none => pure (none, none)
  | some p => do
    let t := p.objectType
    let before ← required d v p.name t p.alignment .parameter
    let after ← named? d v (afterName p.name) t p.alignment .parameter
    pure (some before, after)

/-- A parameter before and, if it can change and is recorded, after the call. A function pointer has
no object; its value is a stub. -/
def parameterValues (p : Parameter) : Traced (NamedValue × Option NamedValue) :=
  if p.isFunctionPointer then do
    -- what stands for it does not depend on any bytes
    let view ← d.decode [] p.type.baseType .parameter p.name
    pure (⟨p.name, p.type, p.alignment, view⟩, none)
  else do
    let t := p.objectType
    let before ← required d v p.name t p.alignment .parameter
    let after ←
      -- an object after the call is not looked at if the call cannot change it
      if p.isChangeable then named? d v (afterName p.name) t p.alignment .parameter
      else pure none
    pure (before, after)

/-- A global variable before and after the call. -/
def globalValues (p : Parameter) : Traced (NamedValue × NamedValue) := do
  let before ← required d v p.name p.type p.alignment .parameter
  -- what a global pointer leads to is compared after the call, not the pointer
  let after ← required d v (afterName p.name) p.type.checkedType p.alignment .parameter
  pure (before, after)

/-! ### Standard input -/

/-- The integer that a literal of type `long long` writes. The least integer has no plain
literal. -/
def countOf? (literal : String) : Option Int :=
  (Text.readInteger? (Text.dropEndings "LL".toList literal.toList)).filter fun n =>
    Validation.inRange (.signed .w64) n

/-- The first `count` bytes of standard input, which must hold them within the capacity. -/
def stdinBytes (count : Int) : Traced Bytes :=
  let capacity := d.config.stdinCapacity
  if count < 0 ∨ capacity < count then .fail (.stdinBudget count capacity)
  else
    match v.contents? stdinName with
    | none => .fail (.missingObject stdinName)
    | some bytes => readBytes bytes 0 count.toNat

/-- **Symbolic standard input**, as the string of the bytes that were read; none if nothing was
read. -/
def stdinValue : Traced (Option NamedValue) := do
  match ← named? d v stdinReadName .longLong none .parameter with
  | none => pure none
  | some read =>
    -- the count is taken from the text, not from the bytes
    let literal := read.view.literal
    match countOf? literal with
    | none => .fail (.malformed s!"stdin read count {literal}")
    | some count =>
      if count = 0 then pure none
      else do
        let bytes ← stdinBytes d v count
        -- the array is as long as the capacity, however many bytes were read
        let t := (CType.simple "char").array d.config.stdinCapacity
        pure (some ⟨stdinVariable, t, none, .string (Literal.string bytes (some bytes.length))⟩)

/-! ### Stubs -/

/-- The values of a stub, if the object records them. The values of function pointer parameters are
not taken here. -/
def stubValue (m : Method) (o : MemoryObject) : Traced (Option NamedValue) :=
  match Text.before? symbolicEnding o.name with
  | none => pure none
  | some stub =>
    if m.parameters.any fun p => p.name = stub && p.isFunctionPointer then pure none
    else
      match m.stubs.find? stub with
      | some (_, returned) => do
        let t := returned.checkedType
        let view ← d.decode o.bytes t .parameter o.name
        pure (some ⟨o.name, t, none, view⟩)
      -- an object with this ending belongs to no parameter and no known stub
      | none => do
        Traced.warn (.unknownStub m.name stub)
        pure none

/-- The values that the function behind a parameter returned, if its type is known and they are
recorded. -/
def stubParameterValue (m : Method) (p : Parameter) : Traced (Option NamedValue) :=
  match m.functionPointers.find? p.name with
  | none => pure none
  | some (_, returned) =>
    named? d v (p.name ++ symbolicEnding) returned.recording none .parameter

/-! ### Returned value -/

/-- The returned value as it is recorded, or no value if the type is left unchecked. -/
def returnedValue (returnType : CType) : Traced NamedValue :=
  if returnType.isUnchecked then pure ⟨resultName, returnType, none, .void⟩
  else
    -- an array is returned with its elements, any other pointer with its one object
    let t := if returnType.isReturnedArray then returnType else returnType.checkedType
    required d v resultName t none .result

/-- The literal of a recorded integer, if it is recorded. -/
def flagLiteral (name : String) : Traced (Option String) := do
  let flag ← named? d v name .int none .parameter
  pure (flag.map (·.view.literal))

/-- A decoded value has the name, type and alignment that were asked for. -/
theorem name_of_named? {d : Decoder} {v : TestVector} {name : String} {t : CType}
    {alignment : Option Nat} {usage : Usage} {value : NamedValue}
    (h : (named? d v name t alignment usage).outcome = .ok (some value)) :
    value.name = name ∧ value.type = t ∧ value.alignment = alignment := by
  unfold named? at h
  cases hc : v.contents? name with
  | none => simp [hc] at h
  | some bytes =>
    rw [hc] at h
    obtain ⟨view, -, h⟩ := Traced.outcome_bind_eq_ok_iff.1 h
    simp only [Traced.outcome_pure, Except.ok.injEq, Option.some.injEq] at h
    simp [← h]

end SymVec.TestCase

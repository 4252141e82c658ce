import SymVec.Layout

/-!
# Decoding errors

What can stop the decoding of a test vector. All but a bad configuration concern a single test case,
and only that case is given up for them.
-/

namespace SymVec

/-- What can stop the decoding of a test vector. -/
inductive DecodeError where
  /-- The type cannot be decoded. -/
  | unsupported (what : String)
  /-- A question about a layout failed. -/
  | layout (error : LayoutError)
  /-- The test vector lacks an object that it must have. -/
  | missingObject (name : String)
  /-- Bytes were asked for that the buffer does not have. -/
  | outOfBounds (offset length size : Nat)
  /-- More bytes were read from symbolic standard input than it can hold. -/
  | stdinBudget (read : Int) (capacity : Nat)
  /-- The test vector contradicts itself. -/
  | malformed (what : String)
  /-- The caller asked for something that has no meaning. -/
  | configuration (what : String)
  /-- Records are nested in each other more than `limit` deep. -/
  | tooDeep (limit : Nat)
  deriving DecidableEq, Repr

namespace DecodeError

/-- The text of a decoding error. -/
def message : DecodeError → String
  | unsupported what => s!"unsupported type for decoding: {what}"
  | layout error => error.message
  | missingObject name => s!"object not found in test case: {name}"
  | outOfBounds offset length size =>
    s!"read of {length} bytes at offset {offset} exceeds buffer of {size} bytes"
  | stdinBudget read capacity =>
    s!"symbolic stdin read {read} bytes but capacity is {capacity}"
  | malformed what => s!"malformed test vector: {what}"
  | configuration what => s!"invalid configuration: {what}"
  | tooDeep limit => s!"decoding nested deeper than {limit} levels"

/-- Whether the error concerns a single test case, so that the others can still be decoded. -/
def isCaseLocal : DecodeError → Bool
  | configuration _ => false
  | _ => true

end DecodeError

end SymVec

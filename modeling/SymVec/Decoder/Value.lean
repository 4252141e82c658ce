import SymVec.Decoder.Record

/-!
# Values

The decoding of a whole buffer, or of a part of it, as a value of a type. What a pointer leads to is
stored in the buffer itself, one element after another, except for an object that was found by
following pointers: there a pointer is stored as its address.

* `Decoder.decode` — a whole buffer;
* `Decoder.decodeRange` — a part of one.
-/

namespace SymVec.Decoder

variable (d : Decoder)

/-- Elements of the type under the outermost level, or groups of them if there are more levels. -/
def sequenceView (bytes : Bytes) (t : CType) (usage : Usage) (name : String) : Traced View :=
  let nested := d.recordView bytes usage d.config.maxDepth
  -- more than one level: all of the buffer is read, whatever count is given
  if 1 < t.dimension then d.nestedArrayView bytes nested usage t 0 bytes.length name
  else do
    let length ← Traced.ofLayout (d.countedLength t.pointee bytes.length usage)
    d.arrayView bytes nested t.pointee 0 length name

/-- **Decoding** of a buffer as a value of type `t`. The name starts the paths of references and is
part of the names of stubs. -/
def decode (bytes : Bytes) (t : CType) (usage : Usage) (name : String) : Traced View :=
  match d.registry.kindOf t with
  | .primitive => primitiveView bytes t 0
  | .struct | .union => d.recordView bytes usage d.config.maxDepth t 0 name
  | .enumeration => d.enumerationView bytes t 0
  | .objectPointer =>
    -- the buffer holds the pointer itself and not what it leads to
    if usage = .lazy then d.pointerView bytes t 0 name
    else if t.isCString then pure (.string (Literal.string bytes none))
    else d.sequenceView bytes t usage name
  | .array => d.sequenceView bytes t usage name
  -- no bytes are read: a stub of that name is defined besides
  | .functionPointer =>
    pure (.functionPointer (Literal.parameterStub d.scope d.method name))
  | .unknown => .fail (.unsupported t.displayName)

/-- **Decoding of a part** of a buffer, from byte `first` up to byte `last`. -/
def decodeRange (bytes : Bytes) (first last : Nat) (t : CType) (usage : Usage) (name : String) :
    Traced View := do
  let run ← readBytes bytes first (last - first)
  d.decode run t usage name

end SymVec.Decoder

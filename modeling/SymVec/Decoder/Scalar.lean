import SymVec.Decoder.Basic
import SymVec.Literal.Scalar
import SymVec.View

/-!
# Scalars

Values that have no parts: primitive values, bit fields, enumeration values and pointers. A scalar
is read where it lies in a larger buffer.

* `Decoder.primitiveView`, `Decoder.enumerationView` — values by the size of their type;
* `Decoder.bitFieldView` — a value of some bits;
* `Decoder.pointerView` — a stored pointer, the only value that reports a reference.
-/

namespace SymVec.Decoder

variable (d : Decoder) (bytes : Bytes)

/-- A primitive value at `offset`. -/
def primitiveView (t : CType) (offset : Nat) : Traced View :=
  match t.primitive? with
  | none => .fail (.unsupported t.displayName)
  | some p => do
    let run ← readBytes bytes offset p.size
    pure (.primitive (Literal.scalar (Bytes.word run) (8 * p.size) p t.baseName))

/-- The bits from `first` on of a word, `width` of them. -/
def bitsOf (word first width : Nat) : Nat :=
  -- a width of a whole word or more takes all bits that are left
  let shifted := word >>> first
  if 64 ≤ width then shifted else shifted % 1 <<< width

/-- A bit field whose storage starts at `offset`. All bytes that it touches are read. -/
def bitFieldView (f : Field) (p : Primitive) (offset : Nat) : Traced View := do
  -- the word has 64 bits, so of a field that touches more bytes the last ones are lost
  let width := f.bitSize.getD (8 * p.size)
  let run ← readBytes bytes offset ((Word.addSaturating f.bitOffset width + 7) / 8)
  pure (.primitive
    (Literal.scalar (bitsOf (Bytes.word run) f.bitOffset width) width p f.type.baseName))

/-- An enumeration value at `offset`. One that the enumeration does not name is cast, with a
warning. -/
def enumerationView (t : CType) (offset : Nat) : Traced View := do
  let e ← Traced.ofLayout (d.registry.enumerationOf t)
  let run ← readBytes bytes offset e.size
  -- the whole value is read, also for a member that is declared with a width
  let value := Word.toSigned (Bytes.word run) (Word.mulSaturating e.size 8)
  match e.qualifiedName? value with
  | some name => pure (.enumerator name)
  | none => do
    Traced.warn (.valueOutOfRange e.name value)
    pure (.enumerator (Literal.enumerationCast (identifier e.name) value))

/-- **Stored pointer** at `offset`. One that leads to a named object is reported as a reference
under the path `access` and left null; any other is written as its address. -/
def pointerView (t : CType) (offset : Nat) (access : String) : Traced View := do
  let run ← readBytes bytes offset d.registry.pointerSize
  let address := Bytes.word run
  match d.table.get? address with
  | some name => do
    -- the literal is null, and the reference sets the pointer once the object is declared
    Traced.refer ⟨access, name, Literal.referenceCast t.name t.dimension⟩
    pure (.primitive Literal.null)
  | none => pure (.primitive (Literal.address address t.name t.dimension))

end SymVec.Decoder

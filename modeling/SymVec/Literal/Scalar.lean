import SymVec.CType.Primitive
import SymVec.Literal.Character
import SymVec.Literal.Number
import SymVec.Word

/-!
# Literals of stored scalars

A scalar is stored as a word of which `bits` bits count.
-/

namespace SymVec.Literal

/-- **Scalar.** The literal of the stored word `raw`, for a primitive type spelled `type`. -/
def scalar (raw bits : Nat) (p : Primitive) (type : String) : String :=
  match p.role with
  | .boolean => boolean (raw != 0)
  | .character => character (if p.signed then Word.toSigned raw bits else raw)
  | .byte => toString (Word.toSigned raw bits)
  | .void => toString raw
  | .integer => if p.signed then signed (Word.toSigned raw bits) type else unsigned raw type
  | .floating =>
    -- the upper half of the word is not part of a four-byte number
    if p.size = 4 then floating .single (raw % 0x100000000) else floating .double raw

end SymVec.Literal

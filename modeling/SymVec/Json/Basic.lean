/-!
# JSON values

Data that is exchanged as JSON. The members of an object are kept in their order, repeated names
included, so that what reads a value decides what a repetition means. Numbers that are no integers
are kept as they are written. A string with an unpaired surrogate, and an object with such a name,
stands for no text; it can be skipped but not read.
-/

namespace SymVec

/-- A JSON value. -/
inductive Json where
  | null
  | boolean (value : Bool)
  | integer (value : Int)
  /-- A number with a fraction, an exponent or a negative zero, as it is written. -/
  | decimal (text : String)
  | string (value : String)
  /-- A string or an object whose names cannot be read as text. -/
  | unreadable
  | array (items : List Json)
  | object (members : List (String × Json))
  deriving Repr, Inhabited

end SymVec

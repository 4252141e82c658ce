import SymVec.Json.Token

/-!
# Reading JSON

A value is built from tokens by a machine with a stack of the arrays and objects that are open.

* `Json.Reader.give` — what a complete value becomes part of;
* `Json.Reader.step` — what one token does;
* `Json.read?` — the value that a text writes.
-/

namespace SymVec.Json

namespace Reader

/-- An array or object that is open around the value that is being read. The parts before it are
held last one first. -/
inductive Frame where
  | item (before : List Json)
  /-- A member, whose name is none if it cannot be read. -/
  | member (name : Option String) (before : List (String × Json)) (readable : Bool)

/-- What has been read, and so what may follow. The parts of open arrays and objects are held last
one first, and the frames innermost first. -/
inductive State where
  | value (frames : List Frame)
  /-- After the start of an array. -/
  | firstItem (frames : List Frame)
  | afterItem (items : List Json) (frames : List Frame)
  /-- After the start of an object. -/
  | firstName (frames : List Frame)
  /-- After a comma in an object. -/
  | nextName (members : List (String × Json)) (readable : Bool) (frames : List Frame)
  | afterName (name : Option String) (members : List (String × Json)) (readable : Bool)
      (frames : List Frame)
  | afterMember (members : List (String × Json)) (readable : Bool) (frames : List Frame)
  | done (result : Json)

/-- A complete value given to the innermost open array or object. -/
def give (v : Json) : List Frame → State
  | [] => .done v
  | .item before :: outer => .afterItem (v :: before) outer
  | .member (some name) before readable :: outer =>
    .afterMember ((name, v) :: before) readable outer
  -- an object with a name that is no text is read to its end and then no text itself
  | .member none before _ :: outer => .afterMember before false outer

/-- The first token of a value. -/
def beginValue (frames : List Frame) : Token → Option State
  | .atom v => some (give v frames)
  | .beginArray => some (.firstItem frames)
  | .beginObject => some (.firstName frames)
  | _ => none

/-- The name of a member. -/
def takeName (members : List (String × Json)) (readable : Bool) (frames : List Frame) :
    Token → Option State
  | .atom (.string name) => some (.afterName (some name) members readable frames)
  | .atom .unreadable => some (.afterName none members readable frames)
  | _ => none

/-- The object of all its members. -/
def object (members : List (String × Json)) (readable : Bool) : Json :=
  if readable then .object members.reverse else .unreadable

/-- One token. -/
def step : State → Token → Option State
  | .value frames, t => beginValue frames t
  -- an array may be empty, but nothing may end it after a comma
  | .firstItem frames, .endArray => some (give (.array []) frames)
  | .firstItem frames, t => beginValue (.item [] :: frames) t
  | .afterItem items frames, .comma => some (.value (.item items :: frames))
  | .afterItem items frames, .endArray => some (give (.array items.reverse) frames)
  | .firstName frames, .endObject => some (give (.object []) frames)
  | .firstName frames, t => takeName [] true frames t
  | .nextName members readable frames, t => takeName members readable frames t
  | .afterName name members readable frames, .colon =>
    some (.value (.member name members readable :: frames))
  | .afterMember members readable frames, .comma => some (.nextName members readable frames)
  | .afterMember members readable frames, .endObject =>
    some (give (object members readable) frames)
  -- any other token is out of place
  | _, _ => none

/-- The tokens of a text taken one after another. -/
def advance (state : State) (tokens : List Token) : Option State := tokens.foldlM step state

/-- The value of all tokens. -/
def ofTokens? (tokens : List Token) : Option Json :=
  match advance (.value []) tokens with
  | some (.done result) => some result
  -- the tokens ended too early, or there are more behind the value
  | _ => none

end Reader

/-- **Reading** of a JSON text. -/
def read? (text : String) : Option Json :=
  (Token.ofChars? text.toList).bind Reader.ofTokens?

end SymVec.Json

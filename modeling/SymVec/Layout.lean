import SymVec.CType.Basic
import SymVec.Word

/-!
# Layouts of records and enumerations

How structures, unions and enumerations lie in memory.

* `Record.fieldsByOffset_perm`, `Record.fieldsByOffset_sorted` — ordering the fields by offset
  neither adds nor loses one;
* `Enumeration.valueOf?_nameOf?` — with distinct names, the value of the name of a value is the
  value.
-/

namespace SymVec

/-- A member of a record. -/
structure Field where
  /-- Empty for an anonymous member. -/
  name : String
  type : CType
  /-- The byte at which the member starts. -/
  offset : Nat
  /-- The width in bits, for a bit field. -/
  bitSize : Option Nat := none
  /-- The first bit within the byte at which the member starts. -/
  bitOffset : Nat := 0
  deriving DecidableEq, Repr

namespace Field

/-- Whether the member fills less than a value of `typeSize` bytes, or starts within a byte. -/
def isBitField (f : Field) (typeSize : Nat) : Bool :=
  match f.bitSize with
  -- a width that fills the type is no bit field, unless it starts within a byte
  | some bits => bits < Word.mulSaturating typeSize 8 || f.bitOffset != 0
  | none => false

/-- Whether the member has no name. -/
def isAnonymous (f : Field) : Bool := f.name.isEmpty

end Field

/-- Whether the members of a record follow each other or share their place. -/
inductive Record.Kind where
  | struct
  | union
  deriving DecidableEq, Repr

/-- A structure or union. -/
structure Record where
  name : String
  kind : Record.Kind
  /-- The size in bytes. -/
  size : Nat
  /-- The members in the order of their declaration. -/
  fields : List Field := []
  /-- Whether the record can be initialised by naming its members. -/
  isAggregate : Bool := true
  /-- Whether a member is a structure or union without a name. -/
  hasAnonymousMember : Bool := false
  deriving DecidableEq, Repr

namespace Record

/-- The members by offset; those that share an offset stay in the order of their declaration. -/
def fieldsByOffset (r : Record) : List Field :=
  r.fields.mergeSort fun a b => a.offset ≤ b.offset

/-- The first member with the given name. -/
def field? (r : Record) (name : String) : Option Field :=
  r.fields.find? (·.name = name)

/-- Ordering the members by offset neither adds nor loses one. -/
theorem fieldsByOffset_perm (r : Record) : r.fieldsByOffset.Perm r.fields :=
  List.mergeSort_perm _ _

/-- The members are ordered by offset. -/
theorem fieldsByOffset_sorted (r : Record) :
    r.fieldsByOffset.Pairwise fun a b => a.offset ≤ b.offset := by
  have := @List.pairwise_mergeSort Field (fun a b => decide (a.offset ≤ b.offset))
    (fun a b c hab hbc => by simp at *; omega) (fun a b => by simp; omega) r.fields
  simpa [fieldsByOffset] using this

/-- Fields declared in the order of their offsets stay as they are. -/
theorem fieldsByOffset_of_sorted {r : Record}
    (h : r.fields.Pairwise fun a b => a.offset ≤ b.offset) : r.fieldsByOffset = r.fields :=
  List.mergeSort_of_pairwise (h.imp fun hle => decide_eq_true hle)

end Record

/-- A named value of an enumeration. -/
structure Enumerator where
  name : String
  value : Int
  deriving DecidableEq, Repr

/-- An enumeration. -/
structure Enumeration where
  name : String
  /-- The size in bytes. -/
  size : Nat := 4
  entries : List Enumerator := []
  /-- The scope by which the names of the values are qualified. -/
  scope : Option String := none
  deriving DecidableEq, Repr

namespace Enumeration

/-- The first name given to a value. -/
def nameOf? (e : Enumeration) (value : Int) : Option String :=
  (e.entries.find? (·.value = value)).map (·.name)

/-- The value first given to a name. -/
def valueOf? (e : Enumeration) (name : String) : Option Int :=
  (e.entries.find? (·.name = name)).map (·.value)

/-- The name of a value with its scope, if there is one and it is not empty. -/
def qualifiedName? (e : Enumeration) (value : Int) : Option String :=
  (e.nameOf? value).map fun name =>
    match e.scope with
    | some scope => if scope.isEmpty then name else scope ++ "::" ++ name
    | none => name

/-- Where no name is given twice, the name of a value has that value. -/
theorem valueOf?_nameOf? {e : Enumeration} {value : Int} {name : String}
    (distinct : (e.entries.map (·.name)).Nodup) (h : e.nameOf? value = some name) :
    e.valueOf? name = some value := by
  obtain ⟨entry, hfind, rfl⟩ := Option.map_eq_some_iff.1 h
  have hvalue : entry.value = value := by simpa using List.find?_some hfind
  have hmem : entry ∈ e.entries := List.mem_of_find?_eq_some hfind
  -- the first entry of that name is the one found, for there is no other
  have general : ∀ entries : List Enumerator, (entries.map (·.name)).Nodup → entry ∈ entries →
      entries.find? (·.name = entry.name) = some entry := by
    intro entries
    induction entries with
    | nil => simp
    | cons first rest ih =>
      intro hnodup hmem
      simp only [List.map_cons, List.nodup_cons, List.mem_map, not_exists, not_and] at hnodup
      rcases List.mem_cons.1 hmem with rfl | hmem
      · simp
      · have : first.name ≠ entry.name := fun heq => hnodup.1 entry hmem heq.symm
        rw [List.find?_cons_of_neg (by simpa using this)]
        exact ih hnodup.2 hmem
  simp [valueOf?, general e.entries distinct hmem, hvalue]

end Enumeration

/-- What can be wrong with a question about a layout. -/
inductive LayoutError where
  /-- The type has no known size. -/
  | unknownType (type : String)
  | notARecord (type : String)
  | notAnEnumeration (type : String)
  /-- No member of the record holds the offset. -/
  | wrongOffset (type : String) (offset : Nat)
  /-- Records are nested in each other more than `limit` deep. -/
  | tooDeep (limit : Nat)
  /-- The size is no machine word. -/
  | sizeOverflow (type : String)
  deriving DecidableEq, Repr

/-- The text of a layout error. -/
def LayoutError.message : LayoutError → String
  | unknownType type => s!"type is unknown: {type}"
  | notARecord type => s!"type is not a struct or union: {type}"
  | notAnEnumeration type => s!"type is not an enum: {type}"
  | wrongOffset type offset => s!"wrong offset {offset} in {type}"
  | tooDeep limit => s!"type nesting deeper than {limit} levels"
  | sizeOverflow type => s!"size of {type} overflows"

end SymVec

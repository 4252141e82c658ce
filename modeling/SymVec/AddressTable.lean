/-!
# Address tables

Which object a stored address belongs to. The null address belongs to none, and an address keeps the
first name it is given.

* `AddressTable.get?_zero` — the null address is never known;
* `AddressTable.get?_insert` — a lookup answers the first name inserted under the address;
* `AddressTable.get?_ofList` — so does a lookup in the table of a list of names.
-/

namespace SymVec

/-- Names of objects by their addresses, in the order in which they were given. -/
structure AddressTable where
  entries : List (Nat × String) := []
  deriving DecidableEq, Repr

namespace AddressTable

instance : EmptyCollection AddressTable := ⟨⟨[]⟩⟩

instance : Inhabited AddressTable := ⟨∅⟩

/-- The name of the object at an address. -/
def get? (table : AddressTable) (address : Nat) : Option String :=
  if address = 0 then none else table.entries.lookup address

/-- The address with its name, unless it is null or has a name already. -/
def insert (table : AddressTable) (address : Nat) (name : String) : AddressTable :=
  if address = 0 ∨ (table.get? address).isSome then table
  else ⟨table.entries ++ [(address, name)]⟩

/-- The number of known addresses. -/
def size (table : AddressTable) : Nat := table.entries.length

/-- The table of the listed names, of which the first one of an address counts. -/
def ofList (pairs : List (Nat × String)) : AddressTable :=
  pairs.foldl (fun table p => table.insert p.1 p.2) ∅

/-- The null address is never known. -/
@[simp]
theorem get?_zero (table : AddressTable) : table.get? 0 = none := rfl

/-- The empty table knows no address. -/
@[simp]
theorem get?_empty (address : Nat) : (∅ : AddressTable).get? address = none := by
  unfold get?
  split <;> rfl

/-- A lookup answers the first name inserted under the address. -/
theorem get?_insert (table : AddressTable) (address other : Nat) (name : String) :
    (table.insert address name).get? other =
      (table.get? other).or (if other = address ∧ address ≠ 0 then some name else none) := by
  by_cases hzero : address = 0
  · simp [insert, hzero]
  · by_cases hknown : (table.get? address).isSome
    · -- the address has a name, which it keeps
      have hsame : table.insert address name = table := by simp [insert, hknown]
      rw [hsame]
      by_cases heq : other = address
      · obtain ⟨found, hfound⟩ := Option.isSome_iff_exists.1 hknown
        simp [heq, hfound]
      · simp [heq]
    · -- the address is new, and its entry is the last one
      have hnew : table.insert address name = ⟨table.entries ++ [(address, name)]⟩ := by
        simp [insert, hzero, hknown]
      rw [hnew]
      by_cases hother : other = 0
      · have : ¬0 = address := fun h => hzero h.symm
        simp [hother, this]
      · simp only [get?, hother, if_false, List.lookup_append, List.lookup_cons, List.lookup_nil]
        by_cases heq : other = address
        · simp [heq, hzero]
        · have : (other == address) = false := by simpa using heq
          simp [heq, this]

/-- Names inserted one after another, behind those that are known already. -/
theorem get?_foldl_insert (pairs : List (Nat × String)) (table : AddressTable) (address : Nat) :
    (pairs.foldl (fun table p => table.insert p.1 p.2) table).get? address =
      (table.get? address).or (if address = 0 then none else pairs.lookup address) := by
  induction pairs generalizing table with
  | nil => simp
  | cons p rest ih =>
    obtain ⟨known, name⟩ := p
    rw [List.foldl_cons, ih, get?_insert, List.lookup_cons, Option.or_assoc]
    congr 1
    by_cases hzero : address = 0
    · subst hzero
      simpa using Eq.symm
    · by_cases heq : address = known
      · -- the address is inserted here, so later entries for it do not count
        subst heq
        simp [hzero]
      · have hne : (address == known) = false := by simpa using heq
        simp [heq, hne]

/-- A lookup in the table of a list answers the first name listed under the address. -/
theorem get?_ofList (pairs : List (Nat × String)) (address : Nat) :
    (ofList pairs).get? address = if address = 0 then none else pairs.lookup address := by
  rw [ofList, get?_foldl_insert, get?_empty, Option.none_or]

end AddressTable

end SymVec

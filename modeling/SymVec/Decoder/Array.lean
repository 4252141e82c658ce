import SymVec.Decoder.Scalar

/-!
# Arrays

An array is read element by element while whole elements fit. Arrays of arrays are first read flat
and then grouped, the innermost length first. An element that is a structure or union is read by a
decoder for nested records that the caller supplies.

Memory is taken as unlimited: as many elements are read as the lengths ask for, however many that
are.

* `chunks_flatten` — grouping neither loses, adds nor moves an element;
* `length_of_mem_dropLast_chunks` — every group but the last is full.
-/

namespace SymVec

/-- Runs of `size` elements, of which the last may be shorter. -/
def chunks {α : Type} (size : Nat) (xs : List α) : List (List α) :=
  if _h : size = 0 ∨ xs = [] then []
  else xs.take size :: chunks size (xs.drop size)
termination_by xs.length
decreasing_by
  have : xs.length ≠ 0 := fun hlen => _h (Or.inr (List.eq_nil_of_length_eq_zero hlen))
  have : size ≠ 0 := fun hsize => _h (Or.inl hsize)
  simp
  omega

/-- Grouping neither loses, adds nor moves an element. -/
theorem chunks_flatten {α : Type} {size : Nat} (h : 0 < size) (xs : List α) :
    (chunks size xs).flatten = xs := by
  induction hn : xs.length using Nat.strongRecOn generalizing xs with
  | _ n ih =>
    unfold chunks
    by_cases hxs : xs = []
    · -- no elements, no groups
      simp [hxs]
    · -- one group is taken off, and the rest is shorter
      have hne : ¬(size = 0 ∨ xs = []) := by
        rintro (h0 | h0)
        · omega
        · exact hxs h0
      have hlen : xs.length ≠ 0 := fun hlen => hxs (List.eq_nil_of_length_eq_zero hlen)
      rw [dif_neg hne, List.flatten_cons, ih (xs.drop size).length (by simp; omega) _ rfl,
        List.take_append_drop]

/-- Every group but the last is full. -/
theorem length_of_mem_dropLast_chunks {α : Type} {size : Nat} {xs group : List α}
    (h : group ∈ (chunks size xs).dropLast) : group.length = size := by
  induction hn : xs.length using Nat.strongRecOn generalizing xs with
  | _ n ih =>
    unfold chunks at h
    split at h
    · simp at h
    · next hne =>
      have hlen : xs.length ≠ 0 := fun hlen => hne (Or.inr (List.eq_nil_of_length_eq_zero hlen))
      have hsize : size ≠ 0 := fun hsize => hne (Or.inl hsize)
      -- of the groups, the first is the last one only if nothing is left behind it
      by_cases htail : chunks size (xs.drop size) = []
      · simp [htail] at h
      · rw [List.dropLast_cons_of_ne_nil htail] at h
        rcases List.mem_cons.1 h with rfl | h
        · have hfull : ¬xs.length < size := by
            intro hshort
            apply htail
            rw [List.drop_eq_nil_of_le (Nat.le_of_lt hshort)]
            unfold chunks
            simp
          simp
          omega
        · exact ih (xs.drop size).length (by simp; omega) h rfl

namespace Decoder

/-- A decoder of records nested in the buffer, by type, offset and path. -/
abbrev Nested := CType → Nat → String → Traced View

variable (d : Decoder) (bytes : Bytes) (nested : Nested)

/-- The bytes that an element takes. A `void` is read as a byte. -/
def elementSize (t : CType) : Except LayoutError Nat :=
  if t.isVoid then .ok 1 else d.registry.sizeOf t

/-- The bytes of a buffer that count as elements: all of them, unless the element count is given. -/
def countedLength (t : CType) (length : Nat) (usage : Usage) : Except LayoutError Nat :=
  match usage.knownSize? with
  -- the count caps the bytes, of which there may still be fewer
  | some n => (d.elementSize t).map fun size => min length (Word.mulSaturating n size)
  | none => .ok length

/-- One element at `offset`, of a type of the given kind. Function pointers are left null. -/
def elementView (kind : CType.Kind) (t : CType) (offset : Nat) (access : String) : Traced View :=
  match kind with
  | .primitive => primitiveView bytes t offset
  | .enumeration => d.enumerationView bytes t offset
  | .struct | .union => nested t offset access
  -- a stub is named after a parameter or a member, and an element has no such name
  | .functionPointer => pure (.primitive Literal.null)
  | .array | .objectPointer | .unknown => .fail (.unsupported t.displayName)

/-- Whether values of this kind can be the elements of an array. -/
def isElementKind : CType.Kind → Bool
  | .array | .objectPointer | .unknown => false
  | _ => true

/-- **Elements** of type `t` in `length` bytes from `offset` on, as many as fit. Their number has no
other bound. -/
def arrayElements (t : CType) (offset length : Nat) (access : String) : Traced (List View) :=
  let kind := d.registry.kindOf t
  if !isElementKind kind then .fail (.unsupported t.displayName)
  else do
    let size ← Traced.ofLayout (d.elementSize t)
    -- elements without bytes cannot be told apart or counted
    if size = 0 then .fail (.unsupported t.displayName)
    else
      -- a rest shorter than an element is left over
      Traced.eachFrom
        (fun i =>
          -- the place of an element is a word, or it cannot be read
          match (Word.mul? i size).bind (Word.add? offset) with
          | none => .fail (.outOfBounds offset length bytes.length)
          | some place => d.elementView bytes nested kind t place s!"{access}[{i}]")
        0 (length / size)

/-- An array of type `t` without further levels. -/
def arrayView (t : CType) (offset length : Nat) (access : String) : Traced View := do
  let elements ← d.arrayElements bytes nested t offset length access
  pure (.array elements)

/-- **Grouping.** Elements put into arrays of the given lengths, the first length innermost. It ends
before a length of zero. -/
def group : List Nat → List View → List View
  | [], elements => elements
  | size :: outer, elements =>
    -- a length of zero cannot be filled, so what is inside of it stays in a row
    if size = 0 then elements else group outer ((chunks size elements).map .array)

/-- An array of arrays: its base elements, grouped by all assumed lengths but the outermost. -/
def nestedArrayView (usage : Usage) (t : CType) (offset length : Nat) (access : String) :
    Traced View := do
  -- paths carry the place in the row, for grouping comes after reading
  let elements ← d.arrayElements bytes nested t.baseType offset length access
  pure (.array (group ((t.arrayLengths usage).drop 1).reverse elements))

end Decoder

end SymVec

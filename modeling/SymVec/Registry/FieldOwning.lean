import SymVec.Registry.Basic

/-!
# The member at an offset

Where a pointer is stored in an object is known only as a byte offset. The member that owns the
offset is found by descending through structures nested by value; a pointer member ends the descent,
so a structure that points to itself does no harm, and one that contains itself is stopped by the
nesting limit of the registry.

* `Record.memberAt?_offset_le` — the member found starts at or before the offset, and no other
  member starts between the two.
-/

namespace SymVec

/-- **Member at an offset.** The last member, by offset and then by declaration, that starts at or
before the offset. -/
def Record.memberAt? (record : Record) (offset : Nat) : Option Field :=
  (record.fieldsByOffset.takeWhile (·.offset ≤ offset)).getLast?

/-- Whether the offset lies behind the end of the record. A record of size zero has no end. -/
def Record.endsBefore (record : Record) (offset : Nat) : Bool :=
  0 < record.size && record.size ≤ offset

/-- The member found starts at or before the offset, and no other starts between the two. -/
theorem Record.memberAt?_offset_le {record : Record} {offset : Nat} {f : Field}
    (h : record.memberAt? offset = some f) :
    f ∈ record.fields ∧ f.offset ≤ offset ∧
      ∀ g ∈ record.fields, g.offset ≤ offset → g.offset ≤ f.offset := by
  have general : ∀ fields : List Field, (fields.Pairwise fun a b => a.offset ≤ b.offset) →
      (fields.takeWhile (·.offset ≤ offset)).getLast? = some f →
      f ∈ fields ∧ f.offset ≤ offset ∧ ∀ g ∈ fields, g.offset ≤ offset → g.offset ≤ f.offset := by
    intro fields
    induction fields with
    | nil => simp
    | cons first rest ih =>
      intro hsorted hlast
      obtain ⟨hfirst, hrest⟩ := List.pairwise_cons.1 hsorted
      by_cases hle : first.offset ≤ offset
      · rw [List.takeWhile_cons_of_pos (by simpa using hle)] at hlast
        cases htail : (rest.takeWhile (·.offset ≤ offset)).getLast? with
        | none =>
          -- all members behind `first` start behind the offset
          have hnil : rest.takeWhile (·.offset ≤ offset) = [] := by simpa using htail
          have hf : first = f := by simpa [hnil] using hlast
          subst hf
          refine ⟨by simp, hle, fun g hg hgle => ?_⟩
          rcases List.mem_cons.1 hg with rfl | hg
          · exact Nat.le_refl _
          · cases rest with
            | nil => simp at hg
            | cons second others =>
              have hsecond : ¬second.offset ≤ offset := by
                intro hs
                rw [List.takeWhile_cons_of_pos (by simpa using hs)] at hnil
                exact absurd hnil (by simp)
              have : second.offset ≤ g.offset := by
                rcases List.mem_cons.1 hg with rfl | hg
                · exact Nat.le_refl _
                · exact (List.pairwise_cons.1 hrest).1 g hg
              omega
        | some last =>
          -- the last member that starts in time lies behind `first`
          have hf : last = f := by
            rw [List.getLast?_cons, htail] at hlast
            simpa using hlast
          subst hf
          obtain ⟨hmem, hoff, hmax⟩ := ih hrest htail
          refine ⟨by simp [hmem], hoff, fun g hg hgle => ?_⟩
          rcases List.mem_cons.1 hg with rfl | hg
          · exact hfirst last hmem
          · exact hmax g hg hgle
      · rw [List.takeWhile_cons_of_neg (by simpa using hle)] at hlast
        simp at hlast
  -- ordering by offset neither adds nor loses a member
  obtain ⟨hmem, hle, hmax⟩ := general _ record.fieldsByOffset_sorted h
  refine ⟨(record.fieldsByOffset_perm.mem_iff).1 hmem, hle, fun g hg hgle => ?_⟩
  exact hmax g ((record.fieldsByOffset_perm.mem_iff).2 hg) hgle

namespace Registry

/-- The type of the member that owns the offset, looking into at most `levels` nested records. -/
def fieldOwningWithin (r : Registry) : (levels : Nat) → CType → Nat → Except LayoutError CType
  | 0, _, _ => .error (.tooDeep r.nestingLimit)
  | levels + 1, t, offset => do
    let record ← r.recordOf t
    if record.endsBefore offset then
      .error (.wrongOffset t.displayName offset)
    else
      match record.memberAt? offset with
      -- the offset lies before all members
      | none => .error (.wrongOffset t.displayName offset)
      | some f =>
        -- only structures have parts at places of their own; a union is an owner itself
        if r.kindOf f.type = .struct then
          r.fieldOwningWithin levels f.type (offset - f.offset)
        else .ok f.type

/-- **Owner of an offset.** The type of the innermost member of `t` that holds the byte `offset`. -/
def fieldOwning (r : Registry) (t : CType) (offset : Nat) : Except LayoutError CType :=
  r.fieldOwningWithin r.nestingLimit t offset

end Registry

end SymVec

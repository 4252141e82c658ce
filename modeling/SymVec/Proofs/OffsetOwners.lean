import Mathlib.Data.List.Forall2
import Mathlib.Data.List.Nodup
import SymVec.Proofs.SearchDepth

/-!
# Owners of offsets

The member that owns an offset is found by ordering the members of a record by their offsets and
taking the last one that does not start later. The order keeps members apart that share an offset,
as bit fields and the members of a union do: they stay as they were declared. So the member found is
the one that a scan of the declaration gives, which keeps the member with the greatest offset so far
and prefers the later of two.

Where no two members of a record share an offset there is nothing to prefer, and the order of the
declaration plays no part.

* `Record.LastStart` — the member that a scan of the declaration keeps;
* `Record.memberAt?_eq_some_iff` — it is the member found in the ordered fields;
* `Registry.Scans` — the search for an owner by such scans;
* `Registry.owners_scanned` — the search finds what the scans find;
* `Registry.fieldOwning_reorders` — other orders of declaration.
-/

namespace SymVec

/-! ### Members of one record -/

namespace Record

variable {record : Record} {offset : Nat} {f g : Field}

/-- **Last start.** Of the members that start at or before the offset, `f` has the greatest offset,
and of those with this offset it is declared last. -/
structure LastStart (record : Record) (offset : Nat) (f : Field) : Prop where
  offset_le : f.offset ≤ offset
  declared : ∃ before after, record.fields = before ++ f :: after ∧
    (∀ g ∈ before, g.offset ≤ offset → g.offset ≤ f.offset) ∧
    ∀ g ∈ after, g.offset ≤ offset → g.offset < f.offset

/-- Members that share an offset stay as they were declared. -/
theorem filter_fieldsByOffset (record : Record) (n : Nat) :
    record.fieldsByOffset.filter (·.offset = n) = record.fields.filter (·.offset = n) := by
  have htied : (record.fields.filter (·.offset = n)).Pairwise
      fun a b => decide (a.offset ≤ b.offset) = true := by
    refine List.pairwise_of_forall_mem_list fun a ha b hb => ?_
    have ha' : a.offset = n := by simpa using (List.mem_filter.1 ha).2
    have hb' : b.offset = n := by simpa using (List.mem_filter.1 hb).2
    simp [ha', hb']
  -- what is in order already keeps its order, and nothing with this offset comes in between
  have hkept : (record.fields.filter (·.offset = n)).Sublist record.fieldsByOffset :=
    List.sublist_mergeSort (fun a b c hab hbc => by simp at *; omega)
      (fun a b => by simp; omega) htied List.filter_sublist
  have hsublist := hkept.filter (·.offset = n)
  rw [List.filter_filter] at hsublist
  simp only [Bool.and_self] at hsublist
  exact (hsublist.eq_of_length (record.fieldsByOffset_perm.filter _).length_eq.symm).symm

/-- Behind the members that start at or before the offset all members start later. -/
theorem lt_offset_of_mem_dropWhile
    (hg : g ∈ record.fieldsByOffset.dropWhile (·.offset ≤ offset)) : offset < g.offset := by
  have hsorted : (record.fieldsByOffset.dropWhile (·.offset ≤ offset)).Pairwise
      fun a b => a.offset ≤ b.offset :=
    record.fieldsByOffset_sorted.sublist (List.dropWhile_sublist _)
  have hfirst := List.head?_dropWhile_not (fun g : Field => decide (g.offset ≤ offset))
    record.fieldsByOffset
  cases hdrop : record.fieldsByOffset.dropWhile (·.offset ≤ offset) with
  | nil =>
    rw [hdrop] at hg
    cases hg
  | cons first rest =>
    rw [hdrop] at hg hsorted hfirst
    -- the first of them is the one at which the scan stopped
    have hlater : offset < first.offset := by simpa using hfirst
    rcases List.mem_cons.1 hg with rfl | hg
    · exact hlater
    · exact Nat.lt_of_lt_of_le hlater ((List.pairwise_cons.1 hsorted).1 g hg)

/-- The member found is the last one with its offset among the ordered fields. -/
theorem getLast?_filter_of_memberAt? (h : record.memberAt? offset = some f) :
    (record.fieldsByOffset.filter (·.offset = f.offset)).getLast? = some f := by
  obtain ⟨-, hle, -⟩ := memberAt?_offset_le h
  obtain ⟨before, hbefore⟩ := List.getLast?_eq_some_iff.1 h
  -- the members behind all start later, and so do not share its offset
  have hlater : (record.fieldsByOffset.dropWhile (·.offset ≤ offset)).filter
      (·.offset = f.offset) = [] := by
    refine List.filter_eq_nil_iff.2 fun g hg heq => ?_
    have hlt := lt_offset_of_mem_dropWhile hg
    have hsame : g.offset = f.offset := of_decide_eq_true heq
    omega
  have hsplit : record.fieldsByOffset =
      (before ++ [f]) ++ record.fieldsByOffset.dropWhile (·.offset ≤ offset) := by
    rw [← hbefore]
    exact List.takeWhile_append_dropWhile.symm
  rw [hsplit, List.filter_append, hlater, List.append_nil, List.filter_append,
    List.filter_cons_of_pos (by simp), List.filter_nil, List.getLast?_concat]

/-- The member that is found is the last start. -/
theorem lastStart_of_memberAt? (h : record.memberAt? offset = some f) :
    record.LastStart offset f := by
  obtain ⟨-, hle, hgreatest⟩ := memberAt?_offset_le h
  have hlast := getLast?_filter_of_memberAt? h
  rw [filter_fieldsByOffset, List.getLast?_filter, List.find?_eq_some_iff_append] at hlast
  obtain ⟨-, after, before, hreverse, hafter⟩ := hlast
  -- the last member with the offset splits the declaration
  have hfields : record.fields = before.reverse ++ f :: after.reverse := by
    simpa using congrArg List.reverse hreverse
  refine ⟨hle, before.reverse, after.reverse, hfields, fun g hg hg' => ?_, fun g hg hg' => ?_⟩
  · exact hgreatest g (by rw [hfields]; exact List.mem_append_left _ hg) hg'
  · have hmem : g ∈ record.fields := by
      rw [hfields]
      exact List.mem_append_right _ (List.mem_cons_of_mem f hg)
    have hother : g.offset ≠ f.offset := by simpa using hafter g (List.mem_reverse.1 hg)
    exact Nat.lt_of_le_of_ne (hgreatest g hmem hg') hother

/-- It is a member of the record. -/
theorem LastStart.mem (h : record.LastStart offset f) : f ∈ record.fields := by
  obtain ⟨before, after, hfields, -⟩ := h.declared
  rw [hfields]
  exact List.mem_append_right _ List.mem_cons_self

theorem LastStart.le_offset (h : record.LastStart offset f) (hg : g ∈ record.fields)
    (hle : g.offset ≤ offset) : g.offset ≤ f.offset := by
  obtain ⟨before, after, hfields, hbefore, hafter⟩ := h.declared
  rw [hfields] at hg
  rcases List.mem_append.1 hg with hg | hg
  · exact hbefore g hg hle
  · rcases List.mem_cons.1 hg with rfl | hg
    · exact Nat.le_refl _
    · exact Nat.le_of_lt (hafter g hg hle)

/-- A scan keeps the last of the members that have its offset. -/
theorem LastStart.getLast?_filter (h : record.LastStart offset f) :
    (record.fields.filter (·.offset = f.offset)).getLast? = some f := by
  obtain ⟨before, after, hfields, -, hafter⟩ := h.declared
  -- members declared behind it start earlier
  have hnone : after.filter (·.offset = f.offset) = [] := by
    rw [List.filter_eq_nil_iff]
    intro g hg heq
    have hsame : g.offset = f.offset := by simpa using heq
    have hle := h.offset_le
    have hlt := hafter g hg (by omega)
    omega
  rw [hfields, List.filter_append, List.filter_cons_of_pos (by simp), hnone,
    List.getLast?_concat]

/-- There is no other last start. -/
theorem LastStart.unique (hf : record.LastStart offset f) (hg : record.LastStart offset g) :
    f = g := by
  -- both have the greatest offset, and each is the last one declared with it
  have hsame : f.offset = g.offset := Nat.le_antisymm (hg.le_offset hf.mem hf.offset_le)
    (hf.le_offset hg.mem hg.offset_le)
  have hlast := hf.getLast?_filter
  rw [hsame, hg.getLast?_filter] at hlast
  exact (Option.some.inj hlast).symm

/-- **Member at an offset**, in the order of the declaration. -/
theorem memberAt?_eq_some_iff : record.memberAt? offset = some f ↔ record.LastStart offset f := by
  refine ⟨lastStart_of_memberAt?, fun h => ?_⟩
  obtain ⟨g, hg⟩ := exists_memberAt? h.mem h.offset_le
  rw [hg, h.unique (lastStart_of_memberAt? hg)]

/-- No member is found before the first of them. -/
theorem memberAt?_eq_none_iff :
    record.memberAt? offset = none ↔ ∀ f ∈ record.fields, offset < f.offset := by
  constructor
  · intro h f hf
    refine Nat.lt_of_not_le fun hle => ?_
    obtain ⟨g, hg⟩ := exists_memberAt? hf hle
    rw [h] at hg
    cases hg
  · intro h
    cases hfound : record.memberAt? offset with
    | none => rfl
    | some f =>
      obtain ⟨hmem, hle, -⟩ := memberAt?_offset_le hfound
      exact absurd (h f hmem) (Nat.not_lt.2 hle)

/-- A record of size zero ends nowhere. -/
theorem endsBefore_iff :
    record.endsBefore offset = true ↔ 0 < record.size ∧ record.size ≤ offset := by
  simp [endsBefore]

end Record

/-! ### Scans -/

namespace Registry

variable {r : Registry} {t : CType} {record : Record} {offset : Nat} {f : Field}
  {result : Except LayoutError CType}

/-- **Scan for the owner** of an offset in a record, by the declarations of its members. The offset
is refused behind the end of the record, if it has one, and before the first of its members. Else
the scan goes on in the last member that starts at or before the offset if this is a structure, and
answers its type if not. -/
inductive Scans (r : Registry) : CType → Nat → Except LayoutError CType → Prop
  | behind {t : CType} {record : Record} {offset : Nat} (recordOf : r.recordOf t = .ok record)
      (ends : 0 < record.size ∧ record.size ≤ offset) :
      Scans r t offset (.error (.wrongOffset t.displayName offset))
  | before {t : CType} {record : Record} {offset : Nat} (recordOf : r.recordOf t = .ok record)
      (starts : ∀ f ∈ record.fields, offset < f.offset) :
      Scans r t offset (.error (.wrongOffset t.displayName offset))
  | nested {t : CType} {record : Record} {offset : Nat} {f : Field}
      {result : Except LayoutError CType} (recordOf : r.recordOf t = .ok record)
      (within : ¬(0 < record.size ∧ record.size ≤ offset)) (last : record.LastStart offset f)
      (struct : r.kindOf f.type = .struct) (inner : Scans r f.type (offset - f.offset) result) :
      Scans r t offset result
  | member {t : CType} {record : Record} {offset : Nat} {f : Field}
      (recordOf : r.recordOf t = .ok record)
      (within : ¬(0 < record.size ∧ record.size ≤ offset)) (last : record.LastStart offset f)
      (other : r.kindOf f.type ≠ .struct) : Scans r t offset (.ok f.type)

/-! The three things that can be found in a record, by its declaration. -/

theorem lookInto_of_behind (ends : 0 < record.size ∧ record.size ≤ offset) :
    r.lookInto record t offset = .answer (.error (.wrongOffset t.displayName offset)) :=
  if_pos (Record.endsBefore_iff.2 ends)

theorem lookInto_of_before (starts : ∀ f ∈ record.fields, offset < f.offset) :
    r.lookInto record t offset = .answer (.error (.wrongOffset t.displayName offset)) := by
  rw [lookInto, Record.memberAt?_eq_none_iff.2 starts, ite_self]

/-- Within the record, the last start is looked into or answers. -/
theorem lookInto_of_lastStart (within : ¬(0 < record.size ∧ record.size ≤ offset))
    (last : record.LastStart offset f) :
    r.lookInto record t offset =
      if r.kindOf f.type = .struct then .inside f.type (offset - f.offset)
      else .answer (.ok f.type) := by
  rw [lookInto, if_neg fun h => within (Record.endsBefore_iff.1 h),
    Record.memberAt?_eq_some_iff.2 last]

/-- A search that is not cut off finds what the scans find. -/
theorem scans_fieldOwningWithin (levels : Nat) {t : CType} {offset : Nat} (ht : r.IsRecord t)
    (hlimit : ∀ limit, r.fieldOwningWithin levels t offset ≠ .error (.tooDeep limit)) :
    r.Scans t offset (r.fieldOwningWithin levels t offset) := by
  induction levels generalizing t offset with
  -- on the limit: where the search goes on inside, it is not cut off there either
  | zero => exact absurd rfl (hlimit r.nestingLimit)
  | succ levels ih =>
    obtain ⟨record, hrecord, -⟩ := ht.exists_record
    rw [fieldOwningWithin_succ, hrecord] at hlimit ⊢
    dsimp only at hlimit ⊢
    -- the four cases of a scan, in the order in which the search tries them
    by_cases hends : 0 < record.size ∧ record.size ≤ offset
    · rw [lookInto_of_behind hends]
      exact .behind hrecord hends
    cases hfound : record.memberAt? offset with
    | none =>
      have hstarts := Record.memberAt?_eq_none_iff.1 hfound
      rw [lookInto_of_before hstarts]
      exact .before hrecord hstarts
    | some f =>
      have hlast : record.LastStart offset f := Record.memberAt?_eq_some_iff.1 hfound
      rw [lookInto_of_lastStart hends hlast] at hlimit ⊢
      by_cases hstruct : r.kindOf f.type = .struct
      · rw [if_pos hstruct] at hlimit ⊢
        exact .nested hrecord hends hlast hstruct (ih (Or.inl hstruct) hlimit)
      · rw [if_neg hstruct]
        exact .member hrecord hends hlast hstruct

/-- An answer that is found in the record of the type is that of the search, unless the search is
cut off. -/
theorem fieldOwningWithin_of_answer (hrecord : r.recordOf t = .ok record)
    (hfound : r.lookInto record t offset = .answer result) (levels : Nat) :
    r.fieldOwningWithin levels t offset = result ∨
      r.fieldOwningWithin levels t offset = .error (.tooDeep r.nestingLimit) := by
  cases levels with
  | zero => exact Or.inr rfl
  | succ levels =>
    rw [fieldOwningWithin_succ, hrecord]
    dsimp only
    rw [hfound]
    exact Or.inl rfl

/-- The same of what is found in a structure that is nested there. -/
theorem fieldOwningWithin_of_inside {u : CType} {rest : Nat} (hrecord : r.recordOf t = .ok record)
    (hfound : r.lookInto record t offset = .inside u rest)
    (hinner : ∀ levels, r.fieldOwningWithin levels u rest = result ∨
      r.fieldOwningWithin levels u rest = .error (.tooDeep r.nestingLimit)) (levels : Nat) :
    r.fieldOwningWithin levels t offset = result ∨
      r.fieldOwningWithin levels t offset = .error (.tooDeep r.nestingLimit) := by
  cases levels with
  | zero => exact Or.inr rfl
  | succ levels =>
    rw [fieldOwningWithin_succ, hrecord]
    dsimp only
    rw [hfound]
    exact hinner levels

/-- What the scans find the search finds as well, unless it is cut off. -/
theorem Scans.fieldOwningWithin_eq (h : r.Scans t offset result) (levels : Nat) :
    r.fieldOwningWithin levels t offset = result ∨
      r.fieldOwningWithin levels t offset = .error (.tooDeep r.nestingLimit) := by
  induction h generalizing levels with
  | behind recordOf ends =>
    exact fieldOwningWithin_of_answer recordOf (lookInto_of_behind ends) levels
  | before recordOf starts =>
    exact fieldOwningWithin_of_answer recordOf (lookInto_of_before starts) levels
  | nested recordOf within last struct _ ih =>
    exact fieldOwningWithin_of_inside recordOf
      ((lookInto_of_lastStart within last).trans (if_pos struct)) ih levels
  | member recordOf within last other =>
    exact fieldOwningWithin_of_answer recordOf
      ((lookInto_of_lastStart within last).trans (if_neg other)) levels

/-- **Search and scans agree** where no record lies within itself. -/
theorem fieldOwning_eq_iff_scans (hacyclic : r.Acyclic) (ht : r.IsRecord t) :
    r.fieldOwning t offset = result ↔ r.Scans t offset result := by
  constructor
  · rintro rfl
    exact scans_fieldOwningWithin _ ht (fieldOwning_ne_tooDeep hacyclic t offset)
  · intro h
    exact (h.fieldOwningWithin_eq r.nestingLimit).resolve_right
      (fieldOwning_ne_tooDeep hacyclic t offset _)

end Registry

/-! ### Orders of declaration -/

/-- The same record with its members declared in another order. -/
def Record.Reorders (record record' : Record) : Prop :=
  ∃ fields, fields.Perm record.fields ∧ record' = { record with fields }

/-- Where no two members share an offset, each is found in every order of declaration. -/
theorem Record.memberAt?_reorders {record record' : Record}
    (hdistinct : (record.fields.map (·.offset)).Nodup) (h : record.Reorders record')
    (offset : Nat) : record'.memberAt? offset = record.memberAt? offset := by
  obtain ⟨fields, hperm, rfl⟩ := h
  cases hfound : record.memberAt? offset with
  | none =>
    rw [memberAt?_eq_none_iff] at hfound ⊢
    exact fun f hf => hfound f (hperm.mem_iff.1 hf)
  | some f =>
    obtain ⟨hmem, hle, hgreatest⟩ := memberAt?_offset_le hfound
    have hmem' : f ∈ fields := hperm.mem_iff.2 hmem
    obtain ⟨g, hg⟩ : ∃ g, { record with fields }.memberAt? offset = some g :=
      exists_memberAt? hmem' hle
    obtain ⟨hgmem, hgle, hggreatest⟩ := memberAt?_offset_le hg
    -- both have the greatest offset, which no other member has
    have hsame : f.offset = g.offset :=
      Nat.le_antisymm (hggreatest f hmem' hle) (hgreatest g (hperm.mem_iff.1 hgmem) hgle)
    rw [hg, List.inj_on_of_nodup_map hdistinct hmem (hperm.mem_iff.1 hgmem) hsame]

/-- A name finds the same record in both lists, but for the order of its members. -/
theorem find?_reorders {records records' : List Record}
    (h : List.Forall₂ Record.Reorders records records') (name : String) :
    Option.Rel Record.Reorders (records.find? (·.name = name))
      (records'.find? (·.name = name)) := by
  induction h with
  | nil => exact .none
  | @cons record record' _ _ hrecord _ ih =>
    -- records are found by their names, which stay the same
    have hname : record'.name = record.name := by
      obtain ⟨fields, -, rfl⟩ := hrecord
      rfl
    by_cases heq : record.name = name
    · rw [List.find?_cons_of_pos (by simpa using heq),
        List.find?_cons_of_pos (by simpa [hname] using heq)]
      exact .some hrecord
    · rw [List.find?_cons_of_neg (by simpa using heq),
        List.find?_cons_of_neg (by simpa [hname] using heq)]
      exact ih

/-- The same of a second search where the first finds nothing. -/
theorem rel_or {α β : Type} {R : α → β → Prop} {first second : Option α} {first' second' : Option β}
    (hfirst : Option.Rel R first first') (hsecond : Option.Rel R second second') :
    Option.Rel R (first.or second) (first'.or second') := by
  cases hfirst with
  | none => exact hsecond
  | some h => exact .some h

namespace Registry

variable {r : Registry}

/-- The registry with other records. -/
def withRecords (r : Registry) (records : Catalog Record.name) : Registry := { r with records }

section Reordered

variable {records : Catalog Record.name}
  (hrecords : List.Forall₂ Record.Reorders r.records.toList records.toList)

include hrecords

/-- A name finds records in both registries that differ in their orders, or none in both. -/
theorem record?_withRecords (name : String) :
    Option.Rel Record.Reorders (r.record? name) ((r.withRecords records).record? name) := by
  have hspelled := find?_reorders hrecords name
  have huntagged := find?_reorders hrecords (untagged name)
  change Option.Rel _ ((r.records.toList.find? _).or (r.records.toList.find? _))
    ((records.toList.find? _).or (records.toList.find? _))
  exact rel_or hspelled huntagged

/-- A type has a record in both registries, or fails alike in both. -/
theorem recordOf_withRecords (t : CType) :
    (∃ e, r.recordOf t = .error e ∧ (r.withRecords records).recordOf t = .error e) ∨
    ∃ record record', r.recordOf t = .ok record ∧
      (r.withRecords records).recordOf t = .ok record' ∧ record.Reorders record' := by
  unfold recordOf
  by_cases hsimple : t.isSimple = true
  · rw [if_pos hsimple, if_pos hsimple]
    have hrel := record?_withRecords hrecords t.baseName
    generalize r.record? t.baseName = found at hrel ⊢
    generalize (r.withRecords records).record? t.baseName = found' at hrel ⊢
    cases hrel with
    | none => exact Or.inl ⟨_, rfl, rfl⟩
    | some h => exact Or.inr ⟨_, _, rfl, rfl, h⟩
  · rw [if_neg hsimple, if_neg hsimple]
    exact Or.inl ⟨_, rfl, rfl⟩

/-- The order of its members is no part of the kind of a record. -/
theorem kindOf_withRecords (t : CType) : (r.withRecords records).kindOf t = r.kindOf t := by
  have hbase : (r.withRecords records).baseKind t = r.baseKind t := by
    have hrel := record?_withRecords hrecords t.baseName
    have henumeration : (r.withRecords records).enumeration? t.baseName =
        r.enumeration? t.baseName := rfl
    unfold baseKind
    rw [henumeration]
    generalize r.record? t.baseName = found at hrel ⊢
    generalize (r.withRecords records).record? t.baseName = found' at hrel ⊢
    cases hrel with
    | none => rfl
    | some h =>
      obtain ⟨fields, -, rfl⟩ := h
      rfl
  unfold kindOf
  rw [hbase]

theorem nestingLimit_withRecords : (r.withRecords records).nestingLimit = r.nestingLimit :=
  congrArg (· + 1) hrecords.length_eq.symm

/-- In a record that is declared in another order the same is found. -/
theorem lookInto_withRecords {record record' : Record}
    (hdistinct : (record.fields.map (·.offset)).Nodup) (h : record.Reorders record') (t : CType)
    (offset : Nat) : (r.withRecords records).lookInto record' t offset =
      r.lookInto record t offset := by
  have hmember := Record.memberAt?_reorders hdistinct h offset
  have hends : record'.endsBefore offset = record.endsBefore offset := by
    obtain ⟨fields, -, rfl⟩ := h
    rfl
  simp only [lookInto, hmember, hends, kindOf_withRecords hrecords]

/-- The search takes the same way in both registries. -/
theorem fieldOwningWithin_withRecords
    (hdistinct : ∀ record ∈ r.records.toList, (record.fields.map (·.offset)).Nodup)
    (levels : Nat) (t : CType) (offset : Nat) :
    (r.withRecords records).fieldOwningWithin levels t offset =
      r.fieldOwningWithin levels t offset := by
  induction levels generalizing t offset with
  | zero =>
    rw [fieldOwningWithin, fieldOwningWithin, nestingLimit_withRecords hrecords]
  | succ levels ih =>
    rw [fieldOwningWithin_succ, fieldOwningWithin_succ]
    -- a type without a record stops both
    obtain ⟨e, he, he'⟩ | ⟨record, record', hof, hof', hreorders⟩ :=
      recordOf_withRecords hrecords t
    · rw [he, he']
    · rw [hof, hof']
      dsimp only
      rw [lookInto_withRecords hrecords (hdistinct record (mem_records_of_recordOf hof)) hreorders]
      cases r.lookInto record t offset with
      | answer result => rfl
      | inside u rest => exact ih u rest

/-- **The order of declaration plays no part** where no two members of a record share an offset. -/
theorem fieldOwning_reorders
    (hdistinct : ∀ record ∈ r.records.toList, (record.fields.map (·.offset)).Nodup) (t : CType)
    (offset : Nat) : (r.withRecords records).fieldOwning t offset = r.fieldOwning t offset := by
  rw [fieldOwning, fieldOwning, nestingLimit_withRecords hrecords,
    fieldOwningWithin_withRecords hrecords hdistinct]

end Reordered

/-- **Owners of offsets are those that scans find.** Where no record lies within itself, the owner
of an offset in a structure or union, or the error, is what the scans of the declarations find.
Where no two members of a record share an offset, it is the same for all orders in which the members
of the records can be declared. -/
theorem owners_scanned (r : Registry) :
    (r.Acyclic → ∀ t, r.IsRecord t → ∀ offset result,
      r.fieldOwning t offset = result ↔ r.Scans t offset result) ∧
    ((∀ record ∈ r.records.toList, (record.fields.map (·.offset)).Nodup) →
      ∀ records : Catalog Record.name,
        List.Forall₂ Record.Reorders r.records.toList records.toList →
          ∀ t offset, (r.withRecords records).fieldOwning t offset = r.fieldOwning t offset) :=
  ⟨fun hacyclic _ ht _ _ => fieldOwning_eq_iff_scans hacyclic ht,
    fun hdistinct _ hrecords t offset => fieldOwning_reorders hrecords hdistinct t offset⟩

/-- A cell: two numbers, the upper one declared first. -/
def cellRecord : Record where
  name := "cell"
  kind := .struct
  size := 8
  fields := [⟨"upper", .int, 4, none, 0⟩, ⟨"lower", .simple "short", 0, none, 0⟩]

/-- A sheet: a cell between two bit fields that share a byte and a number, declared backwards. -/
def sheetRecord : Record where
  name := "sheet"
  kind := .struct
  size := 24
  fields := [⟨"count", .int, 16, none, 0⟩, ⟨"corner", .simple "struct cell", 8, none, 0⟩,
    ⟨"mode", .simple "unsigned int", 0, some 3, 0⟩, ⟨"level", .simple "uint8_t", 0, some 5, 3⟩]

/-- A registry that knows cells. -/
def cellRegistry : Registry := .ofLists [cellRecord] [] 8

/-- A registry that knows cells and sheets. -/
def sheetRegistry : Registry := .ofLists [cellRecord, sheetRecord] [] 8

/-- A sheet holds a cell, which is smaller. -/
theorem acyclic_sheet : sheetRegistry.Acyclic := by
  refine acyclic_of_rank Record.size ?_
  rintro outer inner ⟨houter, f, hf, hkind, hinner⟩
  have hrecords : sheetRegistry.records.toList = [cellRecord, sheetRecord] := rfl
  rw [hrecords] at houter
  have hcell : sheetRegistry.recordOf (.simple "struct cell") = .ok cellRecord := rfl
  simp only [List.mem_cons, List.not_mem_nil, or_false] at houter
  rcases houter with rfl | rfl
  · -- a cell holds numbers only
    simp only [cellRecord, List.mem_cons, List.not_mem_nil, or_false] at hf
    rcases hf with rfl | rfl <;> cases hkind
  · simp only [sheetRecord, List.mem_cons, List.not_mem_nil, or_false] at hf
    rcases hf with rfl | rfl | rfl | rfl
    · cases hkind
    · cases hcell.symm.trans hinner
      decide
    · cases hkind
    · cases hkind

/-- In a sheet, the owner is the upper number of the cell, the later of the bit fields, or none. The
members of a cell may be declared the other way round. -/
theorem sheet_owners_scanned :
    sheetRegistry.Acyclic ∧ sheetRegistry.IsRecord (.simple "sheet") ∧
    sheetRegistry.fieldOwning (.simple "sheet") 13 = .ok .int ∧
    sheetRegistry.fieldOwning (.simple "sheet") 0 = .ok (.simple "uint8_t") ∧
    sheetRegistry.fieldOwning (.simple "sheet") 24 = .error (.wrongOffset "sheet" 24) ∧
    (∀ record ∈ cellRegistry.records.toList, (record.fields.map (·.offset)).Nodup) ∧
    (cellRegistry.withRecords
      (.ofList [{ cellRecord with fields := cellRecord.fields.reverse }])).fieldOwning
        (.simple "cell") 5 = cellRegistry.fieldOwning (.simple "cell") 5 := by
  have hsheet : sheetRegistry.recordOf (.simple "sheet") = .ok sheetRecord := rfl
  have hcell : sheetRegistry.recordOf (.simple "struct cell") = .ok cellRecord := rfl
  have hrecord : sheetRegistry.IsRecord (.simple "sheet") := Or.inl rfl
  have hscan := (owners_scanned sheetRegistry).1 acyclic_sheet _ hrecord
  have hupper : sheetRegistry.Scans (.simple "sheet") 13 (.ok .int) := by
    -- the last member that starts at byte 13 or before is the cell
    have hcorner : sheetRecord.LastStart 13 ⟨"corner", .simple "struct cell", 8, none, 0⟩ :=
      ⟨by decide, [_], [_, _], rfl, by simp, by simp⟩
    have hlast : cellRecord.LastStart 5 ⟨"upper", .int, 4, none, 0⟩ :=
      ⟨by decide, [], [_], rfl, by simp, by simp⟩
    exact .nested hsheet (by decide) hcorner rfl (.member hcell (by decide) hlast (by decide))
  have hlevel : sheetRegistry.Scans (.simple "sheet") 0 (.ok (.simple "uint8_t")) := by
    -- both bit fields start at byte 0, and this one is declared last
    have hlast : sheetRecord.LastStart 0 ⟨"level", .simple "uint8_t", 0, some 5, 3⟩ :=
      ⟨by decide, [_, _, _], [], rfl, by simp, by simp⟩
    exact .member hsheet (by decide) hlast (by decide)
  have hbehind : sheetRegistry.Scans (.simple "sheet") 24 (.error (.wrongOffset "sheet" 24)) :=
    .behind hsheet (by decide)
  have hdistinct : ∀ record ∈ cellRegistry.records.toList,
      (record.fields.map (·.offset)).Nodup := by
    have hrecords : cellRegistry.records.toList = [cellRecord] := rfl
    intro record hmem
    rw [hrecords] at hmem
    rw [List.mem_singleton.1 hmem]
    decide
  have hreorders : List.Forall₂ Record.Reorders cellRegistry.records.toList
      (.ofList [{ cellRecord with fields := cellRecord.fields.reverse }] :
        Catalog Record.name).toList :=
    .cons ⟨_, List.reverse_perm _, rfl⟩ .nil
  exact ⟨acyclic_sheet, hrecord, (hscan 13 _).2 hupper, (hscan 0 _).2 hlevel,
    (hscan 24 _).2 hbehind, hdistinct,
    (owners_scanned cellRegistry).2 hdistinct _ hreorders (.simple "cell") 5⟩

end Registry

end SymVec

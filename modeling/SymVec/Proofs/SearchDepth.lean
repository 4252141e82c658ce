import SymVec.Proofs.Navigation

/-!
# Depth of the search for an owner

The search for the member that owns an offset looks into one record after another, each a structure
nested in the one before. It stops after as many records as the registry has, and one more. So it
ends on every input, also where a record contains itself.

The limit cuts off no search that would have ended by itself. A search that reaches it has looked
into more records than there are, and so into one of them twice. This record lies within itself.
Names play no part in it: a record is the same under its name with and without a tag.

* `Registry.lookInto` — what one record contributes to the search;
* `Registry.searchWithin` — the search together with the records that it looks into;
* `Registry.isChain_examined` — those records hold each other, by induction on the limit;
* `Registry.search_bounded` — how many records are looked into, and when the limit is reached.
-/

namespace SymVec.Registry

variable {r : Registry} {t u : CType} {record : Record} {offset rest : Nat}

/-! ### One record -/

/-- What is found in a record at an offset: an answer, or a structure that is nested there, with the
offset in it. -/
inductive Finding where
  | answer (result : Except LayoutError CType)
  | inside (t : CType) (offset : Nat)

/-- **Finding** at an offset in the record of `t`. -/
def lookInto (r : Registry) (record : Record) (t : CType) (offset : Nat) : Finding :=
  if record.endsBefore offset then .answer (.error (.wrongOffset t.displayName offset))
  else
    match record.memberAt? offset with
    | none => .answer (.error (.wrongOffset t.displayName offset))
    | some f =>
      if r.kindOf f.type = .struct then .inside f.type (offset - f.offset)
      else .answer (.ok f.type)

/-- The search looks into the record of its type, and goes on in a structure that is found there. -/
theorem fieldOwningWithin_succ (levels : Nat) (t : CType) (offset : Nat) :
    r.fieldOwningWithin (levels + 1) t offset =
      match r.recordOf t with
      | .error e => .error e
      | .ok record =>
        match r.lookInto record t offset with
        | .answer result => result
        | .inside u rest => r.fieldOwningWithin levels u rest := by
  rw [fieldOwningWithin]
  cases r.recordOf t with
  | error e => rfl
  | ok record =>
    change (if record.endsBefore offset = true then _ else _) = _
    unfold lookInto
    dsimp only
    split
    · rfl
    · cases record.memberAt? offset with
      | none => rfl
      | some f =>
        dsimp only
        split <;> rfl

/-- A search goes on in a member that is a structure and starts at or before the offset. -/
theorem exists_member_of_inside (h : r.lookInto record t offset = .inside u rest) :
    ∃ f ∈ record.fields, r.kindOf f.type = .struct ∧ u = f.type := by
  unfold lookInto at h
  split at h
  · cases h
  · split at h
    · cases h
    · next f hf =>
      split at h
      · next hstruct =>
        cases h
        exact ⟨f, (Record.memberAt?_offset_le hf).1, hstruct, rfl⟩
      · cases h

/-- A record says nothing about how deep the search may go. -/
theorem answer_ne_tooDeep {result : Except LayoutError CType}
    (h : r.lookInto record t offset = .answer result) (limit : Nat) :
    result ≠ .error (.tooDeep limit) := by
  unfold lookInto at h
  split at h
  · cases h
    simp
  · split at h
    · cases h
      simp
    · split at h
      · cases h
      · cases h
        simp

/-- A type without a record is named as such, which is no limit. -/
theorem eq_notARecord_of_recordOf {e : LayoutError} (h : r.recordOf t = .error e) :
    e = .notARecord t.displayName := by
  unfold recordOf at h
  split at h
  · cases h
  · exact (Except.error.inj h).symm

/-! ### The records looked into -/

/-- **Watched search**: the records that the search looks into, in order, and its outcome. -/
def searchWithin (r : Registry) :
    (levels : Nat) → CType → Nat → List Record × Except LayoutError CType
  | 0, _, _ => ([], .error (.tooDeep r.nestingLimit))
  | levels + 1, t, offset =>
    match r.recordOf t with
    | .error e => ([], .error e)
    | .ok record =>
      match r.lookInto record t offset with
      | .answer result => ([record], result)
      | .inside u rest =>
        let inner := searchWithin r levels u rest
        (record :: inner.1, inner.2)

/-- **Watching** the search does not change its outcome. -/
theorem searchWithin_snd (levels : Nat) (t : CType) (offset : Nat) :
    (r.searchWithin levels t offset).2 = r.fieldOwningWithin levels t offset := by
  induction levels generalizing t offset with
  | zero => rfl
  | succ levels ih =>
    rw [searchWithin, fieldOwningWithin_succ]
    cases r.recordOf t with
    | error e => rfl
    | ok record =>
      dsimp only
      -- an answer ends both, and from a structure both go on with one level less
      cases r.lookInto record t offset with
      | answer result => rfl
      | inside u rest => exact ih u rest

/-- The limit bounds the number of records. -/
theorem length_examined_le (levels : Nat) (t : CType) (offset : Nat) :
    (r.searchWithin levels t offset).1.length ≤ levels := by
  induction levels generalizing t offset with
  | zero => exact Nat.le_refl 0
  -- one record is looked into, and by induction no more than the levels left
  | succ levels ih =>
    rw [searchWithin]
    cases r.recordOf t with
    | error e => exact Nat.zero_le _
    | ok record =>
      dsimp only
      cases r.lookInto record t offset with
      | answer result => exact Nat.succ_le_succ (Nat.zero_le levels)
      | inside u rest => exact Nat.succ_le_succ (ih u rest)

/-- The search starts in the record of its type, and goes from each record to one that it holds. -/
theorem isChain_examined (levels : Nat) (t : CType) (offset : Nat) :
    (∀ record ∈ (r.searchWithin levels t offset).1.head?, r.recordOf t = .ok record) ∧
      (r.searchWithin levels t offset).1.IsChain r.Holds ∧
      ∀ record ∈ (r.searchWithin levels t offset).1, record ∈ r.records.toList := by
  induction levels generalizing t offset with
  | zero => simp [searchWithin]
  | succ levels ih =>
    rw [searchWithin]
    cases hrecord : r.recordOf t with
    | error e => simp
    | ok record =>
      have hknown : record ∈ r.records.toList := mem_records_of_recordOf hrecord
      dsimp only
      cases hfound : r.lookInto record t offset with
      | answer result => simp [hknown]
      | inside u rest =>
        obtain ⟨hhead, hchain, hrest⟩ := ih u rest
        obtain ⟨f, hf, hstruct, rfl⟩ := exists_member_of_inside hfound
        refine ⟨by simp, List.isChain_cons.2 ⟨fun inner hinner => ?_, hchain⟩, ?_⟩
        -- the inner search starts in the record of the member's type, which this record holds
        · exact ⟨hknown, f, hf, hstruct, hhead inner hinner⟩
        · exact List.forall_mem_cons.2 ⟨hknown, hrest⟩

/-- A search that is cut off has looked into as many records as it may. -/
theorem length_examined_of_tooDeep {levels limit : Nat}
    (h : (r.searchWithin levels t offset).2 = .error (.tooDeep limit)) :
    (r.searchWithin levels t offset).1.length = levels ∧ limit = r.nestingLimit := by
  induction levels generalizing t offset with
  -- no level is left, and no record was looked into
  | zero =>
    cases h
    exact ⟨rfl, rfl⟩
  | succ levels ih =>
    rw [searchWithin] at h ⊢
    cases hrecord : r.recordOf t with
    | error e =>
      rw [hrecord] at h
      cases eq_notARecord_of_recordOf hrecord
      cases h
    | ok record =>
      rw [hrecord] at h
      dsimp only at h ⊢
      cases hfound : r.lookInto record t offset with
      -- an answer is not that the search was cut off
      | answer result =>
        rw [hfound] at h
        exact absurd h (answer_ne_tooDeep hfound limit)
      | inside u rest =>
        rw [hfound] at h
        obtain ⟨hlength, hlimit⟩ := ih h
        exact ⟨congrArg (· + 1) hlength, hlimit⟩

/-! ### The limit -/

/-- The search for the owner of an offset, with the records that it looks into. -/
def search (r : Registry) (t : CType) (offset : Nat) : List Record × Except LayoutError CType :=
  r.searchWithin r.nestingLimit t offset

/-- By the pigeonhole principle, a search that is cut off has looked into a record twice. -/
theorem not_nodup_of_tooDeep {limit : Nat} (h : (r.search t offset).2 = .error (.tooDeep limit)) :
    ¬(r.search t offset).1.Nodup := by
  intro hnodup
  obtain ⟨hlength, -⟩ := length_examined_of_tooDeep h
  obtain ⟨-, -, hknown⟩ := isChain_examined (r := r) r.nestingLimit t offset
  -- all of them are known, and without repetition there are no more than are known
  have hle : (r.search t offset).1.length ≤ r.records.size := (hnodup.subperm hknown).length_le
  rw [search, hlength, nestingLimit] at hle
  omega

/-- Where no record lies within itself, the limit is never reached. -/
theorem fieldOwning_ne_tooDeep (hacyclic : r.Acyclic) (t : CType) (offset limit : Nat) :
    r.fieldOwning t offset ≠ .error (.tooDeep limit) := by
  intro h
  rw [fieldOwning, ← searchWithin_snd] at h
  obtain ⟨hlength, -⟩ := length_examined_of_tooDeep h
  obtain ⟨-, hchain, hknown⟩ := isChain_examined (r := r) r.nestingLimit t offset
  -- a chain without a cycle is no longer than the list of records
  have hle := length_le_of_isChain hacyclic hchain hknown
  rw [hlength, nestingLimit] at hle
  omega

/-- **The search is bounded, and its bound suffices.** On every input it looks into at most one
record more than the registry has, each held by the one before. It gives up at the limit only after
it has looked into one of them twice, and it never does so if no record lies within itself; then it
looks into no more records than there are. -/
theorem search_bounded (r : Registry) (t : CType) (offset : Nat) :
    (r.search t offset).2 = r.fieldOwning t offset ∧
    (r.search t offset).1.length ≤ r.records.size + 1 ∧
    (r.search t offset).1.IsChain r.Holds ∧
    (∀ record ∈ (r.search t offset).1, record ∈ r.records.toList) ∧
    (∀ limit, r.fieldOwning t offset = .error (.tooDeep limit) →
      limit = r.records.size + 1 ∧ (r.search t offset).1.length = limit ∧
        ¬(r.search t offset).1.Nodup) ∧
    (r.Acyclic → (r.search t offset).1.length ≤ r.records.size ∧
      ∀ limit, r.fieldOwning t offset ≠ .error (.tooDeep limit)) := by
  have houtcome : (r.search t offset).2 = r.fieldOwning t offset :=
    searchWithin_snd r.nestingLimit t offset
  obtain ⟨-, hchain, hknown⟩ := isChain_examined (r := r) r.nestingLimit t offset
  refine ⟨houtcome, length_examined_le _ t offset, hchain, hknown, fun limit h => ?_,
    fun hacyclic => ⟨length_le_of_isChain hacyclic hchain hknown,
      fieldOwning_ne_tooDeep hacyclic t offset⟩⟩
  rw [← houtcome] at h
  obtain ⟨hlength, hlimit⟩ := length_examined_of_tooDeep h
  exact ⟨hlimit, hlength.trans hlimit.symm, not_nodup_of_tooDeep h⟩

/-- A knot: a structure that holds itself by value, under its name with the tag. -/
def knotRecord : Record where
  name := "knot"
  kind := .struct
  size := 0
  fields := [⟨"inner", .simple "struct knot", 0, none, 0⟩]

/-- The registry that has the knot as its only record. -/
def knotRegistry : Registry := .ofLists [knotRecord] [] 8

/-- A knot is looked into once for each record that is known, and once more. -/
theorem search_knot :
    knotRegistry.search (.simple "knot") 0 = ([knotRecord, knotRecord], .error (.tooDeep 2)) := by
  -- the only member is the knot itself, at the same offset
  have hfound : ∀ t, knotRegistry.lookInto knotRecord t 0 = .inside (.simple "struct knot") 0 := by
    intro t
    have hmember : knotRecord.memberAt? 0 = some ⟨"inner", .simple "struct knot", 0, none, 0⟩ := by
      rw [Record.memberAt?, Record.fieldsByOffset_of_sorted (by decide)]
      rfl
    rw [lookInto, hmember]
    rfl
  have hplain : knotRegistry.recordOf (.simple "knot") = .ok knotRecord := rfl
  have htagged : knotRegistry.recordOf (.simple "struct knot") = .ok knotRecord := rfl
  change knotRegistry.searchWithin 2 (.simple "knot") 0 = _
  simp only [searchWithin, hplain, htagged, hfound]
  rfl

/-- A row of nodes is searched within the limit, and a knot up to it. -/
theorem rows_and_knots_bounded :
    LazySearch.rowDecoder.registry.Acyclic ∧
    (LazySearch.rowDecoder.registry.search (.simple "row") 8).1.length ≤ 2 ∧
    (∀ limit, LazySearch.rowDecoder.registry.fieldOwning (.simple "row") 8 ≠
      .error (.tooDeep limit)) ∧
    knotRegistry.fieldOwning (.simple "knot") 0 = .error (.tooDeep 2) ∧
    (knotRegistry.search (.simple "knot") 0).1.length = 2 ∧
    ¬(knotRegistry.search (.simple "knot") 0).1.Nodup := by
  obtain ⟨-, -, -, -, -, hrows⟩ :=
    search_bounded LazySearch.rowDecoder.registry (.simple "row") 8
  obtain ⟨houtcome, -, -, -, hknots, -⟩ := search_bounded knotRegistry (.simple "knot") 0
  have hknot : knotRegistry.fieldOwning (.simple "knot") 0 = .error (.tooDeep 2) := by
    rw [← houtcome, search_knot]
  obtain ⟨hlength, hlimit⟩ := hrows LazySearch.acyclic_row
  obtain ⟨-, hexamined, htwice⟩ := hknots 2 hknot
  exact ⟨LazySearch.acyclic_row, hlength, hlimit, hknot, hexamined, htwice⟩

end SymVec.Registry

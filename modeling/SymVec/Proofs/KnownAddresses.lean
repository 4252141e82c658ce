import SymVec.Decoder.Value
import SymVec.Proofs.Tracing

/-!
# Known addresses

What a buffer is decoded as depends on the addresses that the table knows, but neither on the names
it has for them nor on the name of the buffer. Names occur in references only, and in the stub that
stands for a function pointer.

Two decoders are `Alike` if they differ in names only. One lemma for each part of the decoder says
that the parts of alike decoders have the same outcome, at any two paths.

* `Decoder.outcome_recordView_congr` — records, by induction on how deep they may be nested;
* `Decoder.outcome_decode_congr` — buffers;
* `Decoder.matches_decode` — buffers that may hold a function pointer.
-/

namespace SymVec.Decoder

open Traced

/-- **Alike decoders.** The layouts and limits are the same, and so are the known addresses, perhaps
under other names. -/
structure Alike (d d' : Decoder) : Prop where
  registry : d'.registry = d.registry
  config : d'.config = d.config
  known : ∀ address, (d'.table.get? address).isSome = (d.table.get? address).isSome

variable {d d' : Decoder} {bytes : Bytes}

/-! ### Scalars -/

/-- An enumeration is read by its layout alone. -/
theorem enumerationView_congr (h : Alike d d') (t : CType) (offset : Nat) :
    d'.enumerationView bytes t offset = d.enumerationView bytes t offset := by
  rw [enumerationView, enumerationView, h.registry]

/-- A pointer to a known address is null, whatever the name of the address is. -/
theorem outcome_pointerView_congr (h : Alike d d') (t : CType) (offset : Nat)
    (access access' : String) :
    (d.pointerView bytes t offset access).outcome =
      (d'.pointerView bytes t offset access').outcome := by
  unfold pointerView
  rw [h.registry]
  refine outcome_bind_congr rfl fun run => ?_
  have hknown := h.known run.word
  dsimp only
  cases hname : d.table.get? run.word with
  | some name =>
    -- the address has a name in both tables
    obtain ⟨name', hname'⟩ : ∃ name', d'.table.get? run.word = some name' := by
      rw [← Option.isSome_iff_exists, hknown, hname]
      rfl
    rw [hname']
    rfl
  | none =>
    have hname' : d'.table.get? run.word = none := by
      rw [← Option.not_isSome_iff_eq_none, hknown, hname]
      exact Bool.false_ne_true
    rw [hname']

/-! ### Arrays -/

/-- Two decoders of nested records that decode the same, at any two paths. -/
def NestedAlike (nested nested' : Nested) : Prop :=
  ∀ (t : CType) (offset : Nat) (access access' : String),
    (nested t offset access).outcome = (nested' t offset access').outcome

section Nested

variable {nested nested' : Nested} (h : Alike d d') (hnested : NestedAlike nested nested')

include h hnested

/-- Elements, by their kind. A path is passed on to nested records only. -/
theorem outcome_elementView_congr (kind : CType.Kind) (t : CType) (offset : Nat)
    (access access' : String) :
    (d.elementView bytes nested kind t offset access).outcome =
      (d'.elementView bytes nested' kind t offset access').outcome := by
  cases kind with
  | struct => exact hnested t offset access access'
  | union => exact hnested t offset access access'
  | enumeration => exact congrArg Traced.outcome (enumerationView_congr h t offset).symm
  | _ => rfl

theorem outcome_arrayElements_congr (t : CType) (offset length : Nat) (access access' : String) :
    (d.arrayElements bytes nested t offset length access).outcome =
      (d'.arrayElements bytes nested' t offset length access').outcome := by
  -- the size of an element is a question about its layout
  have hsize : d'.elementSize t = d.elementSize t := by
    rw [elementSize, elementSize, h.registry]
  unfold arrayElements
  rw [h.registry, hsize]
  dsimp only
  split
  · rfl
  · refine outcome_bind_congr rfl fun size => ?_
    split
    · rfl
    · rw [eachFrom_eq_mapM, eachFrom_eq_mapM]
      -- the steps are at the same places under different paths
      refine outcome_mapM_congr (fun i => ?_) _
      split
      · rfl
      · exact outcome_elementView_congr h hnested _ t _ _ _

theorem outcome_arrayView_congr (t : CType) (offset length : Nat) (access access' : String) :
    (d.arrayView bytes nested t offset length access).outcome =
      (d'.arrayView bytes nested' t offset length access').outcome :=
  outcome_bind_congr (outcome_arrayElements_congr h hnested t offset length access access')
    fun _ => rfl

theorem outcome_nestedArrayView_congr (usage : Usage) (t : CType) (offset length : Nat)
    (access access' : String) :
    (d.nestedArrayView bytes nested usage t offset length access).outcome =
      (d'.nestedArrayView bytes nested' usage t offset length access').outcome :=
  outcome_bind_congr (outcome_arrayElements_congr h hnested t.baseType offset length access access')
    fun _ => rfl

/-! ### Members -/

theorem outcome_arrayFieldView_congr (usage : Usage) (t : CType) (offset : Nat)
    (access access' : String) :
    (d.arrayFieldView bytes usage nested t offset access).outcome =
      (d'.arrayFieldView bytes usage nested' t offset access').outcome := by
  unfold arrayFieldView
  rw [h.registry]
  refine outcome_bind_congr rfl fun size => ?_
  split
  · exact outcome_arrayView_congr h hnested _ _ _ _ _
  · split
    · exact outcome_nestedArrayView_congr h hnested usage t _ _ _ _
    · rfl

/-- **Members**, by their kind. -/
theorem outcome_fieldView_congr (usage : Usage) (record : Record) (f : Field) (base : Nat)
    (access access' : String) :
    (d.fieldView bytes usage nested record f base access).outcome =
      (d'.fieldView bytes usage nested' record f base access').outcome := by
  unfold fieldView
  rw [h.registry]
  split
  · rfl
  · cases d.registry.kindOf f.type with
    | struct => exact hnested _ _ _ _
    | union => exact hnested _ _ _ _
    | enumeration => exact congrArg Traced.outcome (enumerationView_congr h _ _).symm
    | array => exact outcome_arrayFieldView_congr h hnested usage _ _ _ _
    -- the two tables are asked here, and nowhere else in a record
    | objectPointer => exact outcome_pointerView_congr h _ _ _ _
    | _ => rfl

theorem outcome_unionMemberView_congr (usage : Usage) (record : Record) (f : Field) (base : Nat)
    (access access' : String) :
    (d.unionMemberView bytes usage nested record f base access).outcome =
      (d'.unionMemberView bytes usage nested' record f base access').outcome := by
  -- a pointer is left null, and any other member is read as in a structure
  have hfield : (d.fieldView bytes usage nested record f base access).outcome =
      (d'.fieldView bytes usage nested' record f base access').outcome :=
    outcome_fieldView_congr h hnested usage record f base access access'
  unfold unionMemberView
  rw [h.registry]
  split
  · rfl
  · exact hfield

/-! ### Records -/

theorem outcome_rawBytesView_congr (offset size : Nat) :
    (d.rawBytesView bytes nested offset size).outcome =
      (d'.rawBytesView bytes nested' offset size).outcome :=
  outcome_arrayView_congr h hnested _ _ _ _ _

end Nested

/-- Members that are decoded the same make the same list. -/
theorem outcome_membersView_congr {member member' : Field → Traced View}
    (h : ∀ f, (member f).outcome = (member' f).outcome) (fields : List Field) :
    (membersView member fields).outcome = (membersView member' fields).outcome :=
  outcome_mapM_congr (fun f => outcome_bind_congr (h f) fun _ => rfl) fields

/-- Records decode the same, however deep they are nested. -/
theorem outcome_recordView_congr (h : Alike d d') (usage : Usage) (levels : Nat) :
    NestedAlike (d.recordView bytes usage levels) (d'.recordView bytes usage levels) := by
  induction levels with
  | zero =>
    intro t offset access access'
    -- the error tells the limit
    rw [recordView, recordView, h.config]
  | succ levels ih =>
    intro t offset access access'
    unfold recordView
    rw [h.registry]
    refine outcome_bind_congr rfl fun record => ?_
    split
    · unfold structView
      refine outcome_bind_congr ?_ fun fields => ?_
      · exact outcome_membersView_congr
          (fun f => outcome_fieldView_congr h ih usage record f _ _ _) _
      · split
        · exact outcome_bind_congr (outcome_rawBytesView_congr h ih _ _) fun _ => rfl
        · rfl
    · unfold unionView
      refine outcome_bind_congr (outcome_rawBytesView_congr h ih _ _) fun raw => ?_
      refine outcome_bind_congr ?_ fun _ => rfl
      exact outcome_membersView_congr
        (fun f => outcome_unionMemberView_congr h ih usage record f _ _ _) _

/-! ### Buffers -/

theorem outcome_sequenceView_congr (h : Alike d d') (t : CType) (usage : Usage)
    (name name' : String) :
    (d.sequenceView bytes t usage name).outcome =
      (d'.sequenceView bytes t usage name').outcome := by
  have hnested : NestedAlike (d.recordView bytes usage d.config.maxDepth)
      (d'.recordView bytes usage d.config.maxDepth) :=
    outcome_recordView_congr h usage d.config.maxDepth
  -- bytes are counted by the size of an element
  have hcounted : d'.countedLength t.pointee bytes.length usage =
      d.countedLength t.pointee bytes.length usage := by
    rw [countedLength, countedLength, elementSize, elementSize, h.registry]
  unfold sequenceView
  rw [h.config, hcounted]
  dsimp only
  split
  · exact outcome_nestedArrayView_congr h hnested usage t _ _ _ _
  · exact outcome_bind_congr rfl fun length => outcome_arrayView_congr h hnested _ _ _ _ _

/-- **Names do not matter.** Alike decoders decode a buffer to the same value or stop with the same
error, under any two names. Only the value of a function pointer shows the name. -/
theorem outcome_decode_congr (h : Alike d d') (bytes : Bytes) {t : CType}
    (hvalue : d.registry.kindOf t ≠ .functionPointer) (usage : Usage) (name name' : String) :
    (d.decode bytes t usage name).outcome = (d'.decode bytes t usage name').outcome := by
  unfold decode
  rw [h.registry, h.config]
  cases hkind : d.registry.kindOf t with
  | primitive => rfl
  | struct => exact outcome_recordView_congr h usage _ _ _ _ _
  | union => exact outcome_recordView_congr h usage _ _ _ _ _
  | enumeration => exact congrArg Traced.outcome (enumerationView_congr h _ _).symm
  | array => exact outcome_sequenceView_congr h t usage name name'
  | objectPointer =>
    dsimp only
    split
    · exact outcome_pointerView_congr h _ _ _ _
    · split
      · rfl
      · exact outcome_sequenceView_congr h t usage name name'
  | functionPointer => exact absurd hkind hvalue
  | unknown => rfl

/-- Alike decoders fail together, and succeed with the same value unless it is that of a function
pointer. -/
theorem matches_decode (h : Alike d d') (bytes : Bytes) (t : CType) (usage : Usage)
    (name name' : String) :
    Matches (fun view view' => d.registry.kindOf t ≠ .functionPointer → view' = view)
      (d.decode bytes t usage name) (d'.decode bytes t usage name') := by
  -- a stub for a function pointer is made without looking into the buffer
  by_cases hkind : d.registry.kindOf t = .functionPointer
  · unfold decode
    rw [h.registry, hkind]
    exact matches_of_ok rfl rfl fun hvalue => absurd rfl hvalue
  · refine (matches_of_outcome_eq (outcome_decode_congr h bytes hkind usage name name')).imp ?_
    exact fun view view' heq _ => heq.symm

end SymVec.Decoder

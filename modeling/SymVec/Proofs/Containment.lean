import SymVec.Proofs.BreadthFirst
import SymVec.Proofs.Tracing
import SymVec.TestCase.Assembly

/-!
# Containment of faults

Whatever goes wrong while a test vector is decoded concerns the case of this vector alone: no step
fails with an error that stops the others. Nor does a step say that a case is given up; that is left
to the assembly, which knows the position of the vector.

* `Traced.Contained` — a step with these two properties, and how it is put together;
* `Decoder.contained_decode` — buffers of any type, readable or not;
* `TestCase.Assembly.contained_draft` — the draft of a case from a test vector.
-/

namespace SymVec

/-- Whether the warning says that a case is given up. -/
def Warning.isSkip : Warning → Bool
  | .skippedCase _ _ _ => true
  | _ => false

namespace Traced

variable {α β : Type}

/-- **Contained step.** An error of the step concerns one case, and no warning of it says that a
case is given up. -/
structure Contained (step : Traced α) : Prop where
  caseLocal : ∀ {e}, step.outcome = .error e → e.isCaseLocal = true
  unskipped : ∀ w ∈ step.warnings, w.isSkip = false

/-- A step that succeeds without a warning is contained. -/
theorem contained_of_ok {step : Traced α} {a : α} (h : step.outcome = .ok a)
    (hsilent : step.warnings = []) : step.Contained where
  caseLocal he := by
    rw [h] at he
    cases he
  unskipped w hw := by
    rw [hsilent] at hw
    cases hw

theorem contained_pure (a : α) : (pure a : Traced α).Contained := contained_of_ok rfl rfl

theorem contained_refer (r : Reference) : (refer r).Contained := contained_of_ok rfl rfl

theorem contained_warn {w : Warning} (h : w.isSkip = false) : (warn w).Contained where
  caseLocal he := by cases he
  unskipped w' hw := by rwa [List.mem_singleton.1 hw]

/-- A computation without warnings is contained if its errors are. -/
theorem contained_ofExcept {x : Except DecodeError α}
    (h : ∀ {e}, x = .error e → e.isCaseLocal = true) : (ofExcept x).Contained where
  caseLocal := h
  unskipped _ hw := by cases hw

theorem contained_fail {e : DecodeError} (h : e.isCaseLocal = true) :
    (fail e : Traced α).Contained :=
  contained_ofExcept fun he => Except.error.inj he ▸ h

/-- What is wrong with a layout concerns one case. -/
theorem isCaseLocal_of_mapError {x : Except LayoutError α} {e : DecodeError}
    (h : x.mapError DecodeError.layout = .error e) : e.isCaseLocal = true := by
  cases x with
  | ok a => cases h
  | error error =>
    cases h
    rfl

theorem contained_ofLayout (x : Except LayoutError α) : (ofLayout x).Contained :=
  contained_ofExcept isCaseLocal_of_mapError

/-- Steps in a row are contained if each of them is. -/
theorem Contained.bind {step : Traced α} {next : α → Traced β} (h : step.Contained)
    (hnext : ∀ a, (next a).Contained) : (step >>= next).Contained := by
  cases hstep : step.outcome with
  | error e =>
    -- the error of the first step is that of both
    rw [bind_of_error hstep]
    exact ⟨fun he => Except.error.inj he ▸ h.caseLocal hstep, h.unskipped⟩
  | ok a =>
    rw [bind_of_ok hstep]
    refine ⟨fun he => (hnext a).caseLocal he, fun w hw => ?_⟩
    -- a warning is that of one of the two
    rcases List.mem_append.1 hw with hw | hw
    · exact h.unskipped w hw
    · exact (hnext a).unskipped w hw

theorem Contained.map {step : Traced α} (h : step.Contained) (f : α → β) :
    (f <$> step).Contained := by
  rw [map_eq_pure_bind]
  exact h.bind fun a => contained_pure (f a)

theorem contained_mapM {f : α → Traced β} (h : ∀ x, (f x).Contained) (xs : List α) :
    (xs.mapM f).Contained := by
  induction xs with
  | nil => exact contained_pure []
  | cons x rest ih =>
    rw [List.mapM_cons]
    exact (h x).bind fun y => ih.bind fun ys => contained_pure (y :: ys)

theorem contained_forM {f : α → Traced Unit} (h : ∀ x, (f x).Contained) (xs : List α) :
    (xs.forM f).Contained := by
  induction xs with
  | nil => exact contained_pure ()
  | cons x rest ih =>
    rw [List.forM_eq_forM, List.forM_cons, ← List.forM_eq_forM]
    exact (h x).bind fun _ => ih

end Traced

open Traced

/-- Bytes beyond the end of a buffer concern the case that reads them. -/
theorem contained_readBytes (bytes : Bytes) (offset length : Nat) :
    (readBytes bytes offset length).Contained := by
  unfold readBytes
  split
  · exact contained_pure _
  · exact contained_fail rfl

/-! ### Decoding -/

namespace Decoder

variable {d : Decoder} {bytes : Bytes}

theorem contained_primitiveView (t : CType) (offset : Nat) :
    (primitiveView bytes t offset).Contained := by
  unfold primitiveView
  split
  · exact contained_fail rfl
  · exact (contained_readBytes _ _ _).bind fun _ => contained_pure _

theorem contained_bitFieldView (f : Field) (p : Primitive) (offset : Nat) :
    (bitFieldView bytes f p offset).Contained :=
  (contained_readBytes _ _ _).bind fun _ => contained_pure _

theorem contained_enumerationView (t : CType) (offset : Nat) :
    (d.enumerationView bytes t offset).Contained := by
  refine (contained_ofLayout _).bind fun e => (contained_readBytes _ _ _).bind fun run => ?_
  dsimp only
  split
  · exact contained_pure _
  · -- the value is out of range, which gives up no case
    exact (contained_warn rfl).bind fun _ => contained_pure _

theorem contained_pointerView (t : CType) (offset : Nat) (access : String) :
    (d.pointerView bytes t offset access).Contained := by
  -- an address that is not known is no error
  refine (contained_readBytes _ _ _).bind fun run => ?_
  dsimp only
  split
  · exact (contained_refer _).bind fun _ => contained_pure _
  · exact contained_pure _

section Nested

variable {nested : Nested} (hnested : ∀ t offset access, (nested t offset access).Contained)

include hnested

theorem contained_elementView (kind : CType.Kind) (t : CType) (offset : Nat) (access : String) :
    (d.elementView bytes nested kind t offset access).Contained := by
  cases kind with
  | primitive => exact contained_primitiveView _ _
  | enumeration => exact contained_enumerationView _ _
  | struct => exact hnested _ _ _
  | union => exact hnested _ _ _
  | functionPointer => exact contained_pure _
  -- elements are never arrays or pointers, and asking for them is an error of the case
  | array => exact contained_fail rfl
  | objectPointer => exact contained_fail rfl
  | unknown => exact contained_fail rfl

theorem contained_arrayElements (t : CType) (offset length : Nat) (access : String) :
    (d.arrayElements bytes nested t offset length access).Contained := by
  unfold arrayElements
  dsimp only
  split
  · exact contained_fail rfl
  · refine (contained_ofLayout _).bind fun size => ?_
    split
    · exact contained_fail rfl
    · rw [eachFrom_eq_mapM]
      refine contained_mapM (fun i => ?_) _
      -- a place that is no machine word is out of bounds
      split
      · exact contained_fail rfl
      · exact contained_elementView hnested _ _ _ _

theorem contained_arrayView (t : CType) (offset length : Nat) (access : String) :
    (d.arrayView bytes nested t offset length access).Contained :=
  (contained_arrayElements hnested _ _ _ _).bind fun _ => contained_pure _

theorem contained_nestedArrayView (usage : Usage) (t : CType) (offset length : Nat)
    (access : String) : (d.nestedArrayView bytes nested usage t offset length access).Contained :=
  (contained_arrayElements hnested _ _ _ _).bind fun _ => contained_pure _

theorem contained_arrayFieldView (usage : Usage) (t : CType) (offset : Nat) (access : String) :
    (d.arrayFieldView bytes usage nested t offset access).Contained := by
  refine (contained_ofLayout _).bind fun size => ?_
  split
  · exact contained_arrayView hnested _ _ _ _
  · split
    · exact contained_nestedArrayView hnested _ _ _ _ _
    · exact contained_pure _

theorem contained_fieldView (usage : Usage) (record : Record) (f : Field) (base : Nat)
    (access : String) : (d.fieldView bytes usage nested record f base access).Contained := by
  unfold fieldView
  split
  · exact contained_fail rfl
  · dsimp only
    -- the one path of each kind, all of them through readers that are contained
    cases d.registry.kindOf f.type with
    | primitive =>
      dsimp only
      split
      · exact contained_fail rfl
      · split
        · exact contained_bitFieldView _ _ _
        · exact contained_primitiveView _ _
    | struct => exact hnested _ _ _
    | union => exact hnested _ _ _
    | enumeration => exact contained_enumerationView _ _
    | array => exact contained_arrayFieldView hnested _ _ _ _
    | objectPointer => exact contained_pointerView _ _ _
    | functionPointer => exact contained_pure _
    | unknown => exact contained_fail rfl

theorem contained_unionMemberView (usage : Usage) (record : Record) (f : Field) (base : Nat)
    (access : String) : (d.unionMemberView bytes usage nested record f base access).Contained := by
  unfold unionMemberView
  split
  · exact contained_pure _
  · exact contained_fieldView hnested _ _ _ _ _

omit hnested in
theorem contained_membersView {member : Field → Traced View} (h : ∀ f, (member f).Contained)
    (fields : List Field) : (membersView member fields).Contained :=
  contained_mapM (fun f => (h f).bind fun _ => contained_pure _) fields

theorem contained_structView (usage : Usage) (record : Record) (offset : Nat) (access : String) :
    (d.structView bytes usage nested record offset access).Contained := by
  have hmember : ∀ f, (d.fieldView bytes usage nested record f offset access).Contained :=
    fun f => contained_fieldView hnested _ _ _ _ _
  -- after the members the bytes may be read once more, for an anonymous one
  refine (contained_membersView hmember _).bind fun fields => ?_
  dsimp only
  split
  · exact (contained_arrayView hnested _ _ _ _).bind fun _ => contained_pure _
  · exact contained_pure _

theorem contained_unionView (usage : Usage) (record : Record) (offset : Nat) (access : String) :
    (d.unionView bytes usage nested record offset access).Contained := by
  have hmember : ∀ f, (d.unionMemberView bytes usage nested record f offset access).Contained :=
    fun f => contained_unionMemberView hnested _ _ _ _ _
  -- first the raw bytes, and then what the members make of them
  refine (contained_arrayView hnested _ _ _ _).bind fun raw => ?_
  exact (contained_membersView hmember _).bind fun _ => contained_pure _

end Nested

/-- Records, by induction on how deep they may be nested. -/
theorem contained_recordView (usage : Usage) (levels : Nat) (t : CType) (offset : Nat)
    (access : String) : (d.recordView bytes usage levels t offset access).Contained := by
  induction levels generalizing t offset access with
  -- nested too deeply
  | zero => exact contained_fail rfl
  | succ levels ih =>
    refine (contained_ofLayout _).bind fun record => ?_
    cases record.kind with
    | struct => exact contained_structView ih _ _ _ _
    | union => exact contained_unionView ih _ _ _ _

theorem contained_sequenceView (t : CType) (usage : Usage) (name : String) :
    (d.sequenceView bytes t usage name).Contained := by
  have hnested : ∀ t offset access,
      (d.recordView bytes usage d.config.maxDepth t offset access).Contained :=
    fun t offset access => contained_recordView _ _ _ _ _
  unfold sequenceView
  dsimp only
  split
  · exact contained_nestedArrayView hnested _ _ _ _ _
  · exact (contained_ofLayout _).bind fun length => contained_arrayView hnested _ _ _ _

/-- **Decoding is contained**, whatever the type and the buffer. -/
theorem contained_decode (bytes : Bytes) (t : CType) (usage : Usage) (name : String) :
    (d.decode bytes t usage name).Contained := by
  unfold decode
  cases d.registry.kindOf t with
  | primitive => exact contained_primitiveView _ _
  | struct => exact contained_recordView _ _ _ _ _
  | union => exact contained_recordView _ _ _ _ _
  | enumeration => exact contained_enumerationView _ _
  | objectPointer =>
    dsimp only
    split
    · exact contained_pointerView _ _ _
    · split
      · exact contained_pure _
      · exact contained_sequenceView _ _ _
  | array => exact contained_sequenceView _ _ _
  | functionPointer => exact contained_pure _
  | unknown => exact contained_fail rfl

end Decoder

/-! ### Pointers and lazy objects -/

namespace ObjectGraph

variable {v : TestVector}

/-- A pointer that is no address of an object concerns its vector. -/
theorem isCaseLocal_of_extend {pointerSize : Nat} {g : ObjectGraph v} {held : v.Index × Slot}
    {e : DecodeError} (h : extend pointerSize g held = .error e) : e.isCaseLocal = true := by
  unfold extend at h
  dsimp only at h
  split at h
  · split at h
    · cases h
    · split at h
      · cases h
      · cases h
        rfl
  · cases h
    rfl

/-- The scan over the stored pointers fails by one of them. -/
theorem isCaseLocal_of_build {pointerSize : Nat} {e : DecodeError}
    (h : build v pointerSize = .error e) : e.isCaseLocal = true := by
  have hfold : ∀ (slots : List (v.Index × Slot)) (g : ObjectGraph v),
      slots.foldlM (extend pointerSize) g = .error e → e.isCaseLocal = true := by
    intro slots
    induction slots with
    | nil =>
      intro g hg
      cases hg
    | cons held rest ih =>
      intro g hg
      rw [List.foldlM_cons] at hg
      -- the first pointer that cannot be taken in ends the scan
      cases hstep : extend pointerSize g held with
      | error e' =>
        rw [hstep] at hg
        cases hg
        exact isCaseLocal_of_extend hstep
      | ok g' =>
        rw [hstep] at hg
        exact ih g' hg
  exact hfold _ _ h

end ObjectGraph

namespace LazySearch

variable {r : Registry} {v : TestVector} {g : ObjectGraph v}

/-- So does a pointer at an offset where the type has none, -/
theorem isCaseLocal_of_pointeeAt {t : CType} {offset : Nat} {e : DecodeError}
    (h : pointeeAt r t offset = .error e) : e.isCaseLocal = true := by
  unfold pointeeAt at h
  split at h
  · -- the offset is first reduced to one within a structure of the row
    cases hsize : (r.sizeOf t).mapError DecodeError.layout with
    | error e' =>
      rw [hsize] at h
      cases h
      exact isCaseLocal_of_mapError hsize
    | ok size =>
      rw [hsize] at h
      dsimp only [bind, Except.bind] at h
      split at h
      · next e' hmember =>
        cases h
        exact isCaseLocal_of_mapError hmember
      · split at h
        · cases h
        · cases h
          rfl
  · cases h
  · cases h
  · cases h
    rfl

/-- and hence any of the pointers of a visited object. -/
theorem isCaseLocal_of_follow {visit : Visit v} {edges : List (Edge v)} {seen : List v.Index}
    {e : DecodeError} (h : follow r visit edges seen = .error e) : e.isCaseLocal = true := by
  induction edges generalizing seen with
  | nil => cases h
  | cons edge rest ih =>
    unfold follow at h
    split at h
    · exact ih h
    · cases htype : pointeeAt r visit.type edge.offset with
      | error e' =>
        rw [htype] at h
        cases h
        exact isCaseLocal_of_pointeeAt htype
      | ok t =>
        cases hrest : follow r visit rest (edge.target :: seen) with
        | error e' =>
          rw [htype, hrest] at h
          cases h
          exact ih hrest
        | ok found =>
          rw [htype, hrest] at h
          cases h

/-- A search fails by the pointers of one visited object. -/
theorem isCaseLocal_of_explore {queue : List (Visit v)} {seen : List v.Index} {e : DecodeError}
    (h : (explore r g queue seen).2 = some e) : e.isCaseLocal = true := by
  induction queue, seen using explore.induct (r := r) (g := g) with
  | case1 seen =>
    rw [explore_nil] at h
    cases h
  | case2 seen visit rest e' he =>
    rw [explore_cons_of_error he] at h
    cases h
    exact isCaseLocal_of_follow he
  | case3 seen visit rest found hfound visits' stop hvisits ih =>
    rw [explore_cons_of_ok hfound] at h
    exact ih h

theorem contained_declare {d : Decoder} (visit : Visit v) : (declare d g visit).Contained := by
  unfold declare
  dsimp only
  split
  · exact contained_fail rfl
  · exact (Decoder.contained_decode _ _ _ _).bind fun _ => contained_pure _

/-- **Declaring lazy objects is contained.** The search is made once and its errors come last. -/
theorem contained_declarations {d : Decoder} (roots : List Root) :
    (declarations d g roots).Contained := by
  refine (contained_forM (fun root => contained_warn rfl) _).bind fun _ => ?_
  refine (contained_mapM (fun visit => contained_declare visit) _).bind fun declared => ?_
  -- an error that ended the search comes after what was declared
  split
  · next e hstop => exact contained_fail (isCaseLocal_of_explore hstop)
  · exact contained_pure _

end LazySearch

/-! ### Variables -/

namespace TestCase

variable {d : Decoder} {v : TestVector}

theorem contained_named? (name : String) (t : CType) (alignment : Option Nat) (usage : Usage) :
    (named? d v name t alignment usage).Contained := by
  unfold named?
  split
  · exact contained_pure _
  · exact (Decoder.contained_decode _ _ _ _).bind fun _ => contained_pure _

theorem contained_required (name : String) (t : CType) (alignment : Option Nat) (usage : Usage) :
    (required d v name t alignment usage).Contained := by
  refine (contained_named? _ _ _ _).bind fun found => ?_
  cases found with
  | some value => exact contained_pure _
  -- the object is missing
  | none => exact contained_fail rfl

theorem contained_receiverValues (receiver : Option Parameter) :
    (receiverValues d v receiver).Contained := by
  cases receiver with
  | none => exact contained_pure _
  | some p =>
    refine (contained_required _ _ _ _).bind fun before => ?_
    exact (contained_named? _ _ _ _).bind fun after => contained_pure _

theorem contained_parameterValues (p : Parameter) : (parameterValues d v p).Contained := by
  unfold parameterValues
  split
  · exact (Decoder.contained_decode _ _ _ _).bind fun _ => contained_pure _
  · refine (contained_required _ _ _ _).bind fun before => ?_
    dsimp only
    split
    · exact (contained_named? _ _ _ _).bind fun _ => contained_pure _
    · exact contained_pure _

theorem contained_globalValues (p : Parameter) : (globalValues d v p).Contained := by
  refine (contained_required _ _ _ _).bind fun before => ?_
  exact (contained_required _ _ _ _).bind fun after => contained_pure _

theorem contained_stdinBytes (count : Int) : (stdinBytes d v count).Contained := by
  unfold stdinBytes
  dsimp only
  split
  · exact contained_fail rfl
  · split
    · exact contained_fail rfl
    · exact contained_readBytes _ _ _

theorem contained_stdinValue : (stdinValue d v).Contained := by
  refine (contained_named? _ _ _ _).bind fun read => ?_
  cases read with
  | none => exact contained_pure _
  | some read =>
    dsimp only
    split
    · exact contained_fail rfl
    · split
      · exact contained_pure _
      · exact (contained_stdinBytes _).bind fun _ => contained_pure _

theorem contained_stubValue (m : Method) (o : MemoryObject) : (stubValue d m o).Contained := by
  unfold stubValue
  split
  · exact contained_pure _
  · split
    · exact contained_pure _
    · split
      · exact (Decoder.contained_decode _ _ _ _).bind fun _ => contained_pure _
      · -- a stub that is not known is passed over with a warning
        exact (contained_warn rfl).bind fun _ => contained_pure _

theorem contained_stubParameterValue (m : Method) (p : Parameter) :
    (stubParameterValue d v m p).Contained := by
  unfold stubParameterValue
  split
  · exact contained_pure _
  · exact contained_named? _ _ _ _

theorem contained_returnedValue (returnType : CType) :
    (returnedValue d v returnType).Contained := by
  unfold returnedValue
  split
  · -- nothing is returned, or nothing that is checked
    exact contained_pure _
  · exact contained_required _ _ _ _

theorem contained_flagLiteral (name : String) : (flagLiteral d v name).Contained :=
  (contained_named? _ _ _ _).bind fun _ => contained_pure _

/-! ### Cases -/

namespace Assembly

variable {a : Assembly}

/-- Standard input, if it is symbolic. -/
def stdinIfSymbolic (a : Assembly) (d : Decoder) (v : TestVector) : Traced (Option NamedValue) :=
  if a.method.symbolicStdin then stdinValue d v else pure none

/-- The variables of a test vector are decoded one after another, standard input like the others. -/
theorem decodeVariables_eq (a : Assembly) (d : Decoder) (v : TestVector) (returnType : CType) :
    a.decodeVariables d v returnType = (do
      let receiver ← receiverValues d v a.method.receiver
      let parameters ← a.method.parameters.mapM (parameterValues d v)
      let globals ← a.method.globals.mapM (globalValues d v)
      let stdin ← a.stdinIfSymbolic d v
      let stubs ← v.objects.mapM (stubValue d a.method)
      let returned ← returnedValue d v returnType
      let pathFlag ← flagLiteral d v pathFlagName
      let notNull ← flagLiteral d v notNullName
      pure ⟨receiver, parameters, globals, stdin, stubs, returned, pathFlag, notNull⟩) := by
  unfold decodeVariables stdinIfSymbolic
  cases a.method.symbolicStdin <;> rfl

/-- **Decoded variables**, each with the step that decodes it. -/
structure Decodes (a : Assembly) (d : Decoder) (v : TestVector) (returnType : CType)
    (vars : Variables) : Prop where
  receiver : (receiverValues d v a.method.receiver).outcome = .ok vars.receiver
  parameters : (a.method.parameters.mapM (parameterValues d v)).outcome = .ok vars.parameters
  globals : (a.method.globals.mapM (globalValues d v)).outcome = .ok vars.globals
  stdin : (a.stdinIfSymbolic d v).outcome = .ok vars.stdin
  stubs : (v.objects.mapM (stubValue d a.method)).outcome = .ok vars.stubs
  returned : (returnedValue d v returnType).outcome = .ok vars.returned
  pathFlag : (flagLiteral d v pathFlagName).outcome = .ok vars.pathFlag
  notNull : (flagLiteral d v notNullName).outcome = .ok vars.notNull

/-- Decoded variables are decoded each by its own step. -/
theorem decodes_of_decodeVariables {returnType : CType} {vars : Variables}
    (h : (a.decodeVariables d v returnType).outcome = .ok vars) :
    a.Decodes d v returnType vars := by
  rw [decodeVariables_eq] at h
  obtain ⟨receiver, hreceiver, h⟩ := outcome_bind_eq_ok_iff.1 h
  obtain ⟨parameters, hparameters, h⟩ := outcome_bind_eq_ok_iff.1 h
  obtain ⟨globals, hglobals, h⟩ := outcome_bind_eq_ok_iff.1 h
  obtain ⟨stdin, hstdin, h⟩ := outcome_bind_eq_ok_iff.1 h
  obtain ⟨stubs, hstubs, h⟩ := outcome_bind_eq_ok_iff.1 h
  obtain ⟨returned, hreturned, h⟩ := outcome_bind_eq_ok_iff.1 h
  obtain ⟨pathFlag, hpathFlag, h⟩ := outcome_bind_eq_ok_iff.1 h
  obtain ⟨notNull, hnotNull, h⟩ := outcome_bind_eq_ok_iff.1 h
  cases h
  exact ⟨hreceiver, hparameters, hglobals, hstdin, hstubs, hreturned, hpathFlag, hnotNull⟩

theorem contained_stdinIfSymbolic : (a.stdinIfSymbolic d v).Contained := by
  unfold stdinIfSymbolic
  split
  · exact contained_stdinValue
  · exact contained_pure none

/-- **Decoding the variables is contained**, since each of the steps is. -/
theorem contained_decodeVariables (returnType : CType) :
    (a.decodeVariables d v returnType).Contained := by
  rw [decodeVariables_eq]
  refine (contained_receiverValues _).bind fun receiver => ?_
  refine (contained_mapM contained_parameterValues _).bind fun parameters => ?_
  refine (contained_mapM contained_globalValues _).bind fun globals => ?_
  refine contained_stdinIfSymbolic.bind fun stdin => ?_
  refine (contained_mapM (contained_stubValue a.method) _).bind fun stubs => ?_
  refine (contained_returnedValue _).bind fun returned => ?_
  refine (contained_flagLiteral _).bind fun pathFlag => ?_
  exact (contained_flagLiteral _).bind fun notNull => contained_pure _

/-- A value that cannot be compared concerns one case. -/
theorem isCaseLocal_of_applyPredicate {predicate : Option Predicate} {returned : NamedValue}
    {e : DecodeError} (h : applyPredicate predicate returned = .error e) :
    e.isCaseLocal = true := by
  unfold applyPredicate at h
  cases predicate with
  | none => cases h
  | some p =>
    -- only a value that cannot be read as the type of the comparison is an error
    cases hread : Comparable.read? returned.view.literal p.validation with
    | none =>
      simp only [Predicate.holds, hread] at h
      cases h
      rfl
    | some actual =>
      simp only [Predicate.holds, hread] at h
      cases h

theorem contained_completeCase (g : ObjectGraph v) (returnType : CType) (vars : Variables)
    (returned : NamedValue) : (a.completeCase d v g returnType vars returned).Contained := by
  refine (LazySearch.contained_declarations _).bind fun lazyObjects => ?_
  refine (contained_mapM (contained_stubParameterValue a.method) _).bind fun stubParameters => ?_
  exact contained_pure _

theorem contained_selectCase (g : ObjectGraph v) (predicate : Option Predicate)
    (vars : Variables) : (a.selectCase d v g predicate vars).Contained := by
  unfold selectCase
  split
  · exact contained_pure _
  · refine (contained_ofExcept isCaseLocal_of_applyPredicate).bind fun selected => ?_
    cases selected with
    | none => exact contained_pure _
    | some returned => exact (contained_completeCase _ _ _ _).map _

/-- **Drafts are contained.** Whatever a test vector holds, decoding it stops no other one. -/
theorem contained_draft (predicate : Option Predicate) (v : TestVector) :
    (a.draft predicate v).Contained := by
  unfold draft
  split
  · -- a vector without recorded values is not decoded
    exact contained_pure _
  · refine (contained_ofExcept ObjectGraph.isCaseLocal_of_build).bind fun g => ?_
    exact (contained_decodeVariables _).bind fun vars => contained_selectCase _ _ _

end Assembly

end TestCase

end SymVec

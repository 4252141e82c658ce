import SymVec.Proofs.Tracing
import SymVec.Decoder.Value

/-!
# The limit on nesting

Decoding follows the layout of records into the records that they hold by value, and a layout may
hold itself. What ends the recursion is the limit on nesting alone, and all that the limit does is
to end it: a decoder with a higher limit does the same wherever the lower one was not met.

The two decoders are compared step by step. A step with the lower limit is either `CutOff` there, or
it is the step with the higher limit; in that case it has a value in which records are nested as
deep as the steps that made it may nest them. One lemma for each part of the decoder says so, given
that it holds of the records nested in that part, and records follow by induction on the levels that
are left.

* `Decoder.isDescent_iff` — the recursion that counts records from the outside has one solution;
* `Decoder.cutOff_recordView`, `Decoder.cutOff_decode` — records and buffers under two limits;
* `Decoder.limit_only_cuts_off` — what the limit does, all together.
-/

namespace SymVec

/-! ### Nesting in a value -/

namespace View

/-- Whether the value is a structure or union. -/
def isRecord : View → Bool
  | .struct _ _ _ _ | .union _ _ _ => true
  | _ => false

/-- What a value is made of: its parts, and the raw bytes of a union besides its members. -/
def constituents : View → List View
  | .union _ bytes members => bytes :: members.map (·.2)
  | v => v.children

/-- **Descending paths.** The values that are met on a way from a value down into it. -/
inductive Descends : View → List View → Prop
  | root (v : View) : Descends v [v]
  | step {v part : View} {path : List View} (hpart : part ∈ v.constituents)
      (h : Descends part path) : Descends v (v :: path)

/-- **Nesting.** No path into the value meets more than `n` structures and unions. -/
def NestedWithin (n : Nat) (v : View) : Prop :=
  ∀ path, v.Descends path → path.countP isRecord ≤ n

/-- A value that is no record nests what its parts nest. -/
theorem nestedWithin_of_plain {v : View} {n : Nat} (hplain : v.isRecord = false)
    (h : ∀ part ∈ v.constituents, part.NestedWithin n) : v.NestedWithin n := by
  intro path hpath
  cases hpath with
  | root => simp [hplain]
  | step hpart hrest =>
    rw [List.countP_cons_of_neg (by simp [hplain])]
    exact h _ hpart _ hrest

/-- A leaf nests nothing. -/
theorem nestedWithin_leaf {v : View} {n : Nat} (hplain : v.isRecord = false)
    (hleaf : v.constituents = []) : v.NestedWithin n := by
  refine nestedWithin_of_plain hplain fun part hpart => ?_
  rw [hleaf] at hpart
  cases hpart

/-- An array nests what its elements nest. -/
theorem nestedWithin_array {elements : List View} {n : Nat}
    (h : ∀ v ∈ elements, v.NestedWithin n) : (View.array elements).NestedWithin n :=
  nestedWithin_of_plain rfl h

/-- A record is one level more than its parts. -/
theorem nestedWithin_succ {v : View} {n : Nat}
    (h : ∀ part ∈ v.constituents, part.NestedWithin n) : v.NestedWithin (n + 1) := by
  intro path hpath
  cases hpath with
  | root =>
    have hcount : [v].countP isRecord ≤ 1 := List.countP_le_length
    omega
  | step hpart hrest =>
    have hbelow := h _ hpart _ hrest
    rw [List.countP_cons]
    split <;> omega

/-- Grouping elements into arrays nests no more records. -/
theorem nestedWithin_group {n : Nat} (sizes : List Nat) {elements : List View}
    (h : ∀ v ∈ elements, v.NestedWithin n) :
    ∀ v ∈ Decoder.group sizes elements, v.NestedWithin n := by
  induction sizes generalizing elements with
  | nil => exact h
  | cons size outer ih =>
    unfold Decoder.group
    split
    · exact h
    · next hsize =>
      refine ih fun v hv => ?_
      -- a group is a run of the elements
      obtain ⟨run, hrun, rfl⟩ := List.mem_map.1 hv
      refine nestedWithin_array fun element helement => h element ?_
      rw [← chunks_flatten (Nat.pos_of_ne_zero hsize) elements]
      exact List.mem_flatten.2 ⟨run, hrun, helement⟩

end View

/-! ### Steps under two limits -/

namespace Traced

variable {α β : Type} {limit : Nat} {P : α → Prop} {Q : β → Prop}

/-- **Cut off.** The step stops at its limit on nesting. Or else it is the other step, which has
another limit: then it stops at no such limit, and its result, if it has one, satisfies `P`. -/
inductive CutOff (limit : Nat) (P : α → Prop) : Traced α → Traced α → Prop
  | stopped {step other : Traced α} (h : step.outcome = .error (.tooDeep limit)) :
      CutOff limit P step other
  | passed {step : Traced α} (hopen : ∀ n, step.outcome ≠ .error (.tooDeep n))
      (hresult : ∀ a, step.outcome = .ok a → P a) : CutOff limit P step step

/-- A step with a result stops nowhere. -/
theorem cutOff_of_ok {step : Traced α} {a : α} (h : step.outcome = .ok a) (ha : P a) :
    CutOff limit P step step := by
  refine .passed (fun n hn => ?_) (fun b hb => ?_)
  · rw [h] at hn
    cases hn
  · rw [h] at hb
    cases hb
    exact ha

/-- A result without a step is within the limit if it satisfies the property. -/
theorem cutOff_pure {a : α} (h : P a) : CutOff limit P (pure a) (pure a) :=
  cutOff_of_ok rfl h

/-- An error that is about something else is the same under every limit. -/
theorem cutOff_fail {e : DecodeError} (h : ∀ n, e ≠ .tooDeep n) :
    CutOff limit P (fail e) (fail e) := by
  refine .passed (fun n hn => ?_) fun a ha => absurd ha (outcome_fail_ne_ok e a)
  cases hn
  exact h n rfl

/-- A question about a layout meets no limit on the nesting of values. -/
theorem cutOff_ofLayout (x : Except LayoutError α) :
    CutOff limit (fun _ => True) (ofLayout x) (ofLayout x) := by
  cases x with
  | ok a => exact cutOff_pure trivial
  | error e => exact cutOff_fail (e := .layout e) nofun

/-- Steps in a row are cut off where the first one is, or where the second one is after a result of
the first. -/
theorem CutOff.bind {step other : Traced α} {next next' : α → Traced β}
    (h : CutOff limit P step other) (hnext : ∀ a, P a → CutOff limit Q (next a) (next' a)) :
    CutOff limit Q (step >>= next) (other >>= next') := by
  cases h with
  -- the second step is not reached
  | stopped hcut =>
    refine .stopped ?_
    rw [bind_of_error hcut]
  | passed hopen hresult =>
    cases hstep : step.outcome with
    -- the same error stops both, and it is about no limit
    | error e =>
      rw [bind_of_error hstep, bind_of_error hstep]
      refine .passed (fun n hn => hopen n ?_) nofun
      cases hn
      exact hstep
    | ok a =>
      rw [bind_of_ok hstep, bind_of_ok hstep]
      have hsecond : CutOff limit Q (next a) (next' a) := hnext a (hresult a hstep)
      revert hsecond
      generalize next a = second, next' a = second'
      -- what was noted before the second step is the same for both
      rintro (hcut | ⟨hopen', hresult'⟩)
      · exact .stopped hcut
      · exact .passed hopen' hresult'

/-- Steps over a list are cut off at the first one that is. -/
theorem cutOff_mapM {f f' : α → Traced β} {xs : List α}
    (h : ∀ x ∈ xs, CutOff limit Q (f x) (f' x)) :
    CutOff limit (fun ys => ∀ y ∈ ys, Q y) (xs.mapM f) (xs.mapM f') := by
  induction xs with
  | nil => exact cutOff_pure fun y hy => by cases hy
  | cons x rest ih =>
    rw [List.mapM_cons, List.mapM_cons]
    refine (h x List.mem_cons_self).bind fun y hy => ?_
    refine (ih fun x' hx' => h x' (List.mem_cons_of_mem _ hx')).bind fun ys hys => ?_
    exact cutOff_pure (List.forall_mem_cons.2 ⟨hy, hys⟩)

end Traced

namespace Decoder

open Traced

variable {d : Decoder} {bytes : Bytes} {usage : Usage} {limit levels : Nat}

/-! ### Scalars -/

/-- Reading bytes meets no limit on nesting. -/
theorem cutOff_readBytes (offset length : Nat) :
    CutOff limit (fun _ => True) (readBytes bytes offset length)
      (readBytes bytes offset length) := by
  unfold readBytes
  split
  · exact cutOff_pure trivial
  · exact cutOff_fail nofun

theorem cutOff_primitiveView (t : CType) (offset : Nat) :
    CutOff limit (View.NestedWithin levels) (primitiveView bytes t offset)
      (primitiveView bytes t offset) := by
  unfold primitiveView
  split
  · exact cutOff_fail nofun
  · exact (cutOff_readBytes _ _).bind fun run _ => cutOff_pure (View.nestedWithin_leaf rfl rfl)

theorem cutOff_bitFieldView (f : Field) (p : Primitive) (offset : Nat) :
    CutOff limit (View.NestedWithin levels) (bitFieldView bytes f p offset)
      (bitFieldView bytes f p offset) :=
  (cutOff_readBytes _ _).bind fun _ _ => cutOff_pure (View.nestedWithin_leaf rfl rfl)

theorem cutOff_enumerationView (t : CType) (offset : Nat) :
    CutOff limit (View.NestedWithin levels) (d.enumerationView bytes t offset)
      (d.enumerationView bytes t offset) := by
  refine (cutOff_ofLayout _).bind fun e _ => (cutOff_readBytes _ _).bind fun run _ => ?_
  dsimp only
  split
  · exact cutOff_pure (View.nestedWithin_leaf rfl rfl)
  · exact cutOff_of_ok rfl (View.nestedWithin_leaf rfl rfl)

theorem cutOff_pointerView (t : CType) (offset : Nat) (access : String) :
    CutOff limit (View.NestedWithin levels) (d.pointerView bytes t offset access)
      (d.pointerView bytes t offset access) := by
  refine (cutOff_readBytes _ _).bind fun run _ => ?_
  dsimp only
  split
  · exact cutOff_of_ok rfl (View.nestedWithin_leaf rfl rfl)
  · exact cutOff_pure (View.nestedWithin_leaf rfl rfl)

/-! ### Arrays -/

/-- Two decoders of nested records, of which the first is cut off at the limit of `d` or is the
second, and nests records `levels` deep. -/
def NestedCutOff (d : Decoder) (levels : Nat) (nested nested' : Nested) : Prop :=
  ∀ (t : CType) (offset : Nat) (access : String),
    CutOff d.config.maxDepth (View.NestedWithin levels) (nested t offset access)
      (nested' t offset access)

section Nested

variable {nested nested' : Nested} (hnested : d.NestedCutOff levels nested nested')

include hnested

/-- Elements are cut off within nested records only. -/
theorem cutOff_elementView (kind : CType.Kind) (t : CType) (offset : Nat) (access : String) :
    CutOff d.config.maxDepth (View.NestedWithin levels)
      (d.elementView bytes nested kind t offset access)
      (d.elementView bytes nested' kind t offset access) := by
  cases kind with
  | primitive => exact cutOff_primitiveView _ _
  | enumeration => exact cutOff_enumerationView _ _
  | struct => exact hnested _ _ _
  | union => exact hnested _ _ _
  | functionPointer => exact cutOff_pure (View.nestedWithin_leaf rfl rfl)
  | array => exact cutOff_fail nofun
  | objectPointer => exact cutOff_fail nofun
  | unknown => exact cutOff_fail nofun

theorem cutOff_arrayElements (t : CType) (offset length : Nat) (access : String) :
    CutOff d.config.maxDepth (fun elements => ∀ v ∈ elements, v.NestedWithin levels)
      (d.arrayElements bytes nested t offset length access)
      (d.arrayElements bytes nested' t offset length access) := by
  unfold arrayElements
  dsimp only
  split
  · exact cutOff_fail nofun
  · refine (cutOff_ofLayout _).bind fun size _ => ?_
    split
    · exact cutOff_fail nofun
    · rw [eachFrom_eq_mapM, eachFrom_eq_mapM]
      refine cutOff_mapM fun i _ => ?_
      split
      · exact cutOff_fail nofun
      · exact cutOff_elementView hnested _ _ _ _

theorem cutOff_arrayView (t : CType) (offset length : Nat) (access : String) :
    CutOff d.config.maxDepth (View.NestedWithin levels)
      (d.arrayView bytes nested t offset length access)
      (d.arrayView bytes nested' t offset length access) :=
  (cutOff_arrayElements hnested t offset length access).bind fun _ helements =>
    cutOff_pure (View.nestedWithin_array helements)

theorem cutOff_nestedArrayView (t : CType) (offset length : Nat) (access : String) :
    CutOff d.config.maxDepth (View.NestedWithin levels)
      (d.nestedArrayView bytes nested usage t offset length access)
      (d.nestedArrayView bytes nested' usage t offset length access) :=
  (cutOff_arrayElements hnested t.baseType offset length access).bind fun _ helements =>
    cutOff_pure (View.nestedWithin_array (View.nestedWithin_group _ helements))

/-! ### Members -/

theorem cutOff_arrayFieldView (t : CType) (offset : Nat) (access : String) :
    CutOff d.config.maxDepth (View.NestedWithin levels)
      (d.arrayFieldView bytes usage nested t offset access)
      (d.arrayFieldView bytes usage nested' t offset access) := by
  refine (cutOff_ofLayout _).bind fun size _ => ?_
  split
  · exact cutOff_arrayView hnested _ _ _ _
  · split
    · exact cutOff_nestedArrayView hnested _ _ _ _
    · -- an array of arrays of pointers is left null
      refine cutOff_pure (View.nestedWithin_array fun v hv => ?_)
      rw [List.eq_of_mem_replicate hv]
      exact View.nestedWithin_leaf rfl rfl

/-- **Members** are cut off within nested records only, whatever their kind. -/
theorem cutOff_fieldView (record : Record) (f : Field) (base : Nat) (access : String) :
    CutOff d.config.maxDepth (View.NestedWithin levels)
      (d.fieldView bytes usage nested record f base access)
      (d.fieldView bytes usage nested' record f base access) := by
  unfold fieldView
  split
  · exact cutOff_fail nofun
  · dsimp only
    cases d.registry.kindOf f.type with
    | primitive =>
      dsimp only
      split
      · exact cutOff_fail nofun
      · split
        · exact cutOff_bitFieldView _ _ _
        · exact cutOff_primitiveView _ _
    | struct => exact hnested _ _ _
    | union => exact hnested _ _ _
    | enumeration => exact cutOff_enumerationView _ _
    | array => exact cutOff_arrayFieldView hnested _ _ _
    | objectPointer => exact cutOff_pointerView _ _ _
    | functionPointer => exact cutOff_pure (View.nestedWithin_leaf rfl rfl)
    | unknown => exact cutOff_fail nofun

theorem cutOff_unionMemberView (record : Record) (f : Field) (base : Nat) (access : String) :
    CutOff d.config.maxDepth (View.NestedWithin levels)
      (d.unionMemberView bytes usage nested record f base access)
      (d.unionMemberView bytes usage nested' record f base access) := by
  unfold unionMemberView
  split
  · exact cutOff_pure (View.nestedWithin_leaf rfl rfl)
  · exact cutOff_fieldView hnested record f base access

omit hnested in
theorem cutOff_membersView {member member' : Field → Traced View} {fields : List Field}
    (h : ∀ f, CutOff limit (View.NestedWithin levels) (member f) (member' f)) :
    CutOff limit (fun named => ∀ m ∈ named, m.2.NestedWithin levels) (membersView member fields)
      (membersView member' fields) :=
  cutOff_mapM fun f _ => (h f).bind fun _ hview => cutOff_pure hview

/-! ### Records -/

/-- A structure nests its members one level deeper. -/
theorem cutOff_structView (record : Record) (offset : Nat) (access : String) :
    CutOff d.config.maxDepth (View.NestedWithin (levels + 1))
      (d.structView bytes usage nested record offset access)
      (d.structView bytes usage nested' record offset access) := by
  have hfield (f : Field) : CutOff d.config.maxDepth (View.NestedWithin levels)
      (d.fieldView bytes usage nested record f offset access)
      (d.fieldView bytes usage nested' record f offset access) :=
    cutOff_fieldView hnested record f offset access
  refine (cutOff_membersView hfield).bind fun fields hnest => ?_
  -- the override is a text beside the members and nests nothing
  have hview (override : Option String) :
      (View.struct (identifier record.name) fields record.isAggregate override).NestedWithin
        (levels + 1) := by
    refine View.nestedWithin_succ fun part hpart => ?_
    obtain ⟨m, hm, rfl⟩ := List.mem_map.1 hpart
    exact hnest m hm
  dsimp only
  split
  · exact (cutOff_arrayView hnested _ _ _ _).bind fun raw _ => cutOff_pure (hview _)
  · exact cutOff_pure (hview _)

/-- A union nests its members and its raw bytes one level deeper. -/
theorem cutOff_unionView (record : Record) (offset : Nat) (access : String) :
    CutOff d.config.maxDepth (View.NestedWithin (levels + 1))
      (d.unionView bytes usage nested record offset access)
      (d.unionView bytes usage nested' record offset access) := by
  have hmember (f : Field) : CutOff d.config.maxDepth (View.NestedWithin levels)
      (d.unionMemberView bytes usage nested record f offset access)
      (d.unionMemberView bytes usage nested' record f offset access) :=
    cutOff_unionMemberView hnested record f offset access
  refine (cutOff_arrayView hnested _ _ _ _).bind fun raw hraw => ?_
  refine (cutOff_membersView hmember).bind fun members hnest => ?_
  refine cutOff_pure (View.nestedWithin_succ fun part hpart => ?_)
  rcases List.mem_cons.1 hpart with rfl | hpart
  · exact hraw
  · obtain ⟨m, hm, rfl⟩ := List.mem_map.1 hpart
    exact hnest m hm

end Nested

/-- The decoder with another limit on nesting. -/
def withMaxDepth (d : Decoder) (limit : Nat) : Decoder :=
  { d with config := { d.config with maxDepth := limit } }

/-- **Records** under two limits, by induction on the levels that the lower one leaves. -/
theorem cutOff_recordView {levels' : Nat} (hlevels : levels ≤ levels') :
    d.NestedCutOff levels (d.recordView bytes usage levels)
      ((d.withMaxDepth limit).recordView bytes usage levels') := by
  induction levels generalizing levels' with
  -- no levels are left under the lower limit
  | zero => exact fun _ _ _ => .stopped rfl
  | succ levels ih =>
    obtain ⟨levels', rfl⟩ : ∃ n, levels' = n + 1 := ⟨levels' - 1, by omega⟩
    have hnested : d.NestedCutOff levels (d.recordView bytes usage levels)
        ((d.withMaxDepth limit).recordView bytes usage levels') := ih (by omega)
    intro t offset access
    refine (cutOff_ofLayout _).bind fun record _ => ?_
    split
    · exact cutOff_structView hnested record offset access
    · exact cutOff_unionView hnested record offset access

/-! ### Buffers -/

theorem cutOff_sequenceView (hlimit : d.config.maxDepth ≤ limit) (t : CType) (name : String) :
    CutOff d.config.maxDepth (View.NestedWithin d.config.maxDepth)
      (d.sequenceView bytes t usage name)
      ((d.withMaxDepth limit).sequenceView bytes t usage name) := by
  -- the lower limit is reached first, wherever records are nested
  have hnested : d.NestedCutOff d.config.maxDepth (d.recordView bytes usage d.config.maxDepth)
      ((d.withMaxDepth limit).recordView bytes usage limit) := cutOff_recordView hlimit
  unfold sequenceView
  dsimp only
  split
  · exact cutOff_nestedArrayView hnested _ _ _ _
  · exact (cutOff_ofLayout _).bind fun length _ => cutOff_arrayView hnested _ _ _ _

/-- **Buffers** under two limits. -/
theorem cutOff_decode (hlimit : d.config.maxDepth ≤ limit) (bytes : Bytes) (t : CType)
    (usage : Usage) (name : String) :
    CutOff d.config.maxDepth (View.NestedWithin d.config.maxDepth) (d.decode bytes t usage name)
      ((d.withMaxDepth limit).decode bytes t usage name) := by
  have hsequence : CutOff d.config.maxDepth (View.NestedWithin d.config.maxDepth)
      (d.sequenceView bytes t usage name)
      ((d.withMaxDepth limit).sequenceView bytes t usage name) :=
    cutOff_sequenceView hlimit t name
  have hkind : (d.withMaxDepth limit).registry.kindOf t = d.registry.kindOf t := rfl
  unfold decode
  rw [hkind]
  cases d.registry.kindOf t with
  | primitive => exact cutOff_primitiveView _ _
  | struct => exact cutOff_recordView hlimit _ _ _
  | union => exact cutOff_recordView hlimit _ _ _
  | enumeration => exact cutOff_enumerationView _ _
  | array => exact hsequence
  | objectPointer =>
    dsimp only
    split
    · exact cutOff_pointerView _ _ _
    · split
      · exact cutOff_pure (View.nestedWithin_leaf rfl rfl)
      · exact hsequence
  | functionPointer => exact cutOff_pure (View.nestedWithin_leaf rfl rfl)
  | unknown => exact cutOff_fail nofun

/-! ### The recursion -/

/-- A record, by a decoder for the records nested in it. -/
def recordBy (d : Decoder) (bytes : Bytes) (usage : Usage) (nested : Nested) : Nested :=
  fun t offset access => do
    let record ← Traced.ofLayout (d.registry.recordOf t)
    match record.kind with
    | .struct => d.structView bytes usage nested record offset access
    | .union => d.unionView bytes usage nested record offset access

/-- **Descent.** Decoders of records by their depth, counted from the outside. Each one reads a
record by the decoder one deeper, whatever that is, and stops where the limit is exceeded. -/
def IsDescent (d : Decoder) (bytes : Bytes) (usage : Usage) (descent : Nat → Nested) : Prop :=
  ∀ depth t offset access, descent depth t offset access =
    if d.config.maxDepth < depth + 1 then .fail (.tooDeep d.config.maxDepth)
    else d.recordBy bytes usage (descent (depth + 1)) t offset access

/-- **The recursion ends.** There is one descent, which decodes a record with the levels that its
depth leaves. -/
theorem isDescent_iff {descent : Nat → Nested} :
    d.IsDescent bytes usage descent ↔
      ∀ depth, descent depth = d.recordView bytes usage (d.config.maxDepth - depth) := by
  constructor
  · intro h depth
    -- by induction on the levels that are left, since the depth itself grows
    induction hleft : d.config.maxDepth - depth generalizing depth with
    | zero =>
      funext t offset access
      rw [h, if_pos (by omega)]
      rfl
    | succ levels ih =>
      funext t offset access
      rw [h, if_neg (by omega), ih (depth + 1) (by omega)]
      rfl
  · intro h depth t offset access
    rw [h, h]
    split
    · next hdeep =>
      -- beyond the limit no levels are left
      have hleft : d.config.maxDepth - depth = 0 := by omega
      rw [hleft]
      rfl
    · next hopen =>
      have hleft : d.config.maxDepth - depth = d.config.maxDepth - (depth + 1) + 1 := by omega
      rw [hleft]
      rfl

/-- **The limit only cuts off.** The recursion into records has one solution, whatever the layouts
are, and buffers are decoded by it. No value nests more records than the limit allows. An error that
says so names the limit; where there is none, every higher limit leads to the same result, the same
references and the same warnings. -/
theorem limit_only_cuts_off (d : Decoder) (bytes : Bytes) (t : CType) (usage : Usage)
    (name : String) :
    (∀ descent, d.IsDescent bytes usage descent ↔
      ∀ depth, descent depth = d.recordView bytes usage (d.config.maxDepth - depth)) ∧
    (∀ view, (d.decode bytes t usage name).outcome = .ok view →
      view.NestedWithin d.config.maxDepth) ∧
    (∀ n, (d.decode bytes t usage name).outcome = .error (.tooDeep n) →
      n = d.config.maxDepth) ∧
    ((∀ n, (d.decode bytes t usage name).outcome ≠ .error (.tooDeep n)) →
      ∀ limit, d.config.maxDepth ≤ limit →
        (d.withMaxDepth limit).decode bytes t usage name = d.decode bytes t usage name) := by
  refine ⟨fun descent => isDescent_iff, fun view hview => ?_, fun n hn => ?_,
    fun hopen limit hlimit => ?_⟩
  · have hcut := cutOff_decode (Nat.le_refl d.config.maxDepth) bytes t usage name
    rcases hcut with hcut | ⟨-, hresult⟩
    · rw [hcut] at hview
      cases hview
    · exact hresult view hview
  · have hcut := cutOff_decode (Nat.le_refl d.config.maxDepth) bytes t usage name
    rcases hcut with hcut | ⟨hopen, -⟩
    · rw [hcut] at hn
      cases hn
      rfl
    · exact absurd hn (hopen n)
  · have hcut := cutOff_decode hlimit bytes t usage name
    -- the step is not stopped, so the other one is the same
    generalize (d.withMaxDepth limit).decode bytes t usage name = other at hcut ⊢
    cases hcut with
    | stopped hcut => exact absurd hcut (hopen _)
    | passed => rfl

/-- An egg with a yolk. -/
def eggRecord : Record where
  name := "egg"
  kind := .struct
  size := 2
  fields := [⟨"shell", .simple "uint8_t", 0, none, 0⟩, ⟨"yolk", .simple "yolk", 1, none, 0⟩]

/-- The yolk, a union of one byte. -/
def yolkRecord : Record where
  name := "yolk"
  kind := .union
  size := 1
  fields := [⟨"color", .simple "uint8_t", 0, none, 0⟩]

/-- A mirror that holds itself. -/
def mirrorRecord : Record where
  name := "mirror"
  kind := .struct
  size := 2
  fields := [⟨"image", .simple "mirror", 0, none, 0⟩]

/-- A decoder that allows two records within each other. -/
def eggDecoder : Decoder where
  registry := .ofLists [eggRecord, yolkRecord, mirrorRecord] [] 8
  config := { maxDepth := 2 }
  method := "boil"

/-- An egg nests two records, and is the same under a higher limit. A mirror is cut off. -/
theorem egg_limit_only_cuts_off :
    (∃ view, (eggDecoder.decode [7, 9] (.simple "egg") .parameter "e").outcome = .ok view ∧
      view.NestedWithin 2) ∧
    (eggDecoder.withMaxDepth 5).decode [7, 9] (.simple "egg") .parameter "e" =
      eggDecoder.decode [7, 9] (.simple "egg") .parameter "e" ∧
    ∃ n, (eggDecoder.decode [7, 9] (.simple "mirror") .parameter "m").outcome =
      .error (.tooDeep n) ∧ n = 2 := by
  obtain ⟨view, hegg⟩ : ∃ view,
      (eggDecoder.decode [7, 9] (.simple "egg") .parameter "e").outcome = .ok view := ⟨_, rfl⟩
  have hmirror : (eggDecoder.decode [7, 9] (.simple "mirror") .parameter "m").outcome =
      .error (.tooDeep 2) := rfl
  obtain ⟨-, hnest, -, hsame⟩ :=
    limit_only_cuts_off eggDecoder [7, 9] (.simple "egg") .parameter "e"
  obtain ⟨-, -, hlimit, -⟩ :=
    limit_only_cuts_off eggDecoder [7, 9] (.simple "mirror") .parameter "m"
  refine ⟨⟨view, hegg, hnest view hegg⟩, ?_, 2, hmirror, hlimit 2 hmirror⟩
  refine hsame (fun n hn => ?_) 5 (by decide)
  rw [hegg] at hn
  cases hn

end Decoder

end SymVec

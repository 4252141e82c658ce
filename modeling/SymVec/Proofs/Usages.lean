import SymVec.Proofs.AccessPaths
import SymVec.Proofs.ArrayShapes

/-!
# What a usage decides

The usage under which a buffer is read says how many elements its type is taken to have. That is all
it says: how many elements are read is decided by the bytes and, where it is given, by the element
count, and what an element is does not depend on the usage at all. Records are read the same under
every usage, since an array in a record has a length of its own at each of its levels.

So there are two places left at which a usage can matter, both of them at the outermost level of
the buffer: a given count ends a row of elements earlier, and the lengths that are assumed for
pointers put an array of arrays into other groups.

* `Decoder.recordView_usage` — records, by induction on how deep they may be nested;
* `Traced.mapM_take` — the first steps of a sequence that succeeds;
* `Decoder.arrayElements_take` — a row that ends earlier;
* `Decoder.usage_caps_or_regroups` — buffers.
-/

namespace SymVec

/-! ### Assumed lengths -/

namespace CType

variable {t : CType}

/-- Without a pointer all levels are gone through. -/
theorem throughFirstPointer_of_allArrays {levels : List Level}
    (h : levels.all (· != .pointer) = true) : throughFirstPointer levels = levels := by
  induction levels with
  | nil => rfl
  | cons level rest ih =>
    rw [List.all_cons, Bool.and_eq_true] at h
    cases level with
    | pointer => cases h.1
    | array n => rw [throughFirstPointer, ih h.2]

/-- **Without a pointer no length is assumed:** each level has its own. -/
theorem arrayLengths_of_allArrays (h : Decoder.allArrays t = true) (usage usage' : Usage) :
    t.arrayLengths usage = t.arrayLengths usage' := by
  -- the lengths are those of all levels, with or without a given count
  have hcounted (usage : Usage) :
      t.arrayLengths usage = t.levels.map (t.levelLength usage) := by
    rw [arrayLengths]
    split
    · rw [throughFirstPointer_of_allArrays h]
    · rfl
  rw [hcounted, hcounted]
  apply List.map_congr_left
  intro level hlevel
  cases level with
  | pointer =>
    have hnone : (Level.pointer != Level.pointer) = true := List.all_eq_true.1 h _ hlevel
    cases hnone
  | array n => rfl

/-- Arguments and returned values assume the same lengths under several levels. -/
theorem arrayLengths_result (h : 1 < t.dimension) :
    t.arrayLengths .result = t.arrayLengths .parameter := by
  have hresult : t.arrayLengths .result = t.levels.map (t.levelLength .result) :=
    arrayLengths_eq_map nofun
  have hparameter : t.arrayLengths .parameter = t.levels.map (t.levelLength .parameter) :=
    arrayLengths_eq_map nofun
  rw [hresult, hparameter]
  apply List.map_congr_left
  intro level _
  cases level with
  | pointer =>
    have hseveral : ¬t.levels.length ≤ 1 := Nat.not_le_of_lt h
    rw [levelLength, levelLength, if_neg hseveral, if_neg hseveral]
    rfl
  | array n => rfl

end CType

/-! ### The first steps of a sequence -/

/-- **The first steps** of a sequence that succeeds have the first of its results, and report the
first of what it reports. -/
theorem Traced.mapM_take {α β : Type} {f : α → Traced β} {xs : List α} {ys : List β}
    (h : (xs.mapM f).outcome = .ok ys) (k : Nat) :
    ((xs.take k).mapM f).outcome = .ok (ys.take k) ∧
      ((xs.take k).mapM f).references <+: (xs.mapM f).references := by
  have hfirst : ((xs.take k).mapM f).outcome = .ok (ys.take k) :=
    outcome_mapM_eq_ok_iff.2 (List.forall₂_take k (outcome_mapM_eq_ok_iff.1 h))
  refine ⟨hfirst, ?_⟩
  rw [references_mapM_of_ok h, references_mapM_of_ok hfirst]
  -- the steps are the first ones, and then the others
  conv_rhs => rw [← List.take_append_drop k xs, List.flatMap_append]
  exact List.prefix_append _ _

namespace Decoder

open Traced

variable {d : Decoder} {bytes : Bytes} {nested : Nested} {t : CType} {name : String}

/-! ### Records -/

/-- An array in a record has a length of its own, which no usage changes. -/
theorem arrayFieldView_usage (usage usage' : Usage) (t : CType) (offset : Nat) (access : String) :
    d.arrayFieldView bytes usage nested t offset access =
      d.arrayFieldView bytes usage' nested t offset access := by
  unfold arrayFieldView
  congr 1
  funext size
  split
  · rfl
  · split
    · next harrays =>
      rw [nestedArrayView, nestedArrayView, CType.arrayLengths_of_allArrays harrays usage usage']
    · rfl

/-- Members are read the same under every usage. -/
theorem fieldView_usage (usage usage' : Usage) (record : Record) (f : Field) (base : Nat)
    (access : String) :
    d.fieldView bytes usage nested record f base access =
      d.fieldView bytes usage' nested record f base access := by
  unfold fieldView
  cases Word.add? base f.offset with
  | none => rfl
  | some offset =>
    cases d.registry.kindOf f.type with
    -- of all kinds only an array passes the usage on
    | array => exact arrayFieldView_usage usage usage' _ _ _
    | _ => rfl

/-- So are members of a union. -/
theorem unionMemberView_usage (usage usage' : Usage) (record : Record) (f : Field) (base : Nat)
    (access : String) :
    d.unionMemberView bytes usage nested record f base access =
      d.unionMemberView bytes usage' nested record f base access := by
  unfold unionMemberView
  rw [fieldView_usage usage usage']

/-- **Records** are read the same under every usage. -/
theorem recordView_usage (usage usage' : Usage) (levels : Nat) :
    d.recordView bytes usage levels = d.recordView bytes usage' levels := by
  induction levels with
  | zero => rfl
  | succ levels ih =>
    funext t offset access
    unfold recordView structView unionView
    -- nested records are read the same, and so are the members around them
    rw [ih]
    simp only [fieldView_usage usage usage', unionMemberView_usage usage usage']

/-! ### Rows that end earlier -/

/-- A row of fewer bytes has the first elements, as many as fit into these bytes. -/
theorem arrayElements_take {offset length length' size : Nat} {access : String}
    {elements : List View}
    (h : (d.arrayElements bytes nested t offset length access).outcome = .ok elements)
    (hsize : d.registry.sizeOf t = .ok size) (hle : length' ≤ length) :
    (d.arrayElements bytes nested t offset length' access).outcome =
        .ok (elements.take (length' / size)) ∧
      (d.arrayElements bytes nested t offset length' access).references <+:
        (d.arrayElements bytes nested t offset length access).references := by
  have hkind : isElementKind (d.registry.kindOf t) = true := isElementKind_of_arrayElements h
  obtain ⟨size', hsize', hpos, -⟩ := exists_of_arrayElements h
  obtain rfl : size = size' := Except.ok.inj (hsize.symm.trans hsize')
  -- the steps for the first elements are those of the longer row
  have hfirst : (List.range (length / size)).take (length' / size) =
      List.range (length' / size) := by
    rw [List.take_range, Nat.min_eq_left (Nat.div_le_div_right hle)]
  have hagrees : Agrees
      ((List.range (length' / size)).mapM
        (d.elementStep bytes nested t size offset length access))
      ((List.range (length' / size)).mapM
        (d.elementStep bytes nested t size offset length' access)) := by
    apply Agrees.mapM
    intro i _
    unfold elementStep
    split
    · exact agrees_fail _ _
    · exact Agrees.of_eq rfl
  rw [arrayElements_eq_mapM hkind hsize hpos] at h ⊢
  rw [arrayElements_eq_mapM hkind hsize hpos]
  -- of the longer row the first steps are taken, and then its length is replaced by the shorter
  obtain ⟨houtcome, hreferences⟩ := mapM_take h (length' / size)
  rw [hfirst] at houtcome hreferences
  rw [hagrees _ houtcome]
  exact ⟨houtcome, hreferences⟩

/-- The bytes that a given count leaves hold that many elements, or all that there are. -/
theorem count_of_known {length size : Nat} (hword : length < Word.limit) (hpos : 0 < size)
    (n : Nat) : min length (Word.mulSaturating n size) / size = min n (length / size) := by
  -- no buffer is longer than the greatest word, so a product that stops there caps nothing
  have hcapped : min length (Word.mulSaturating n size) = min length (n * size) := by
    unfold Word.mulSaturating Word.greatest
    omega
  rw [hcapped]
  -- either the buffer ends first or the count does
  rcases Nat.le_total length (n * size) with hle | hle
  · have hcount : length / size ≤ n := Nat.div_le_of_le_mul (by rwa [Nat.mul_comm])
    rw [Nat.min_eq_left hle, Nat.min_eq_right hcount]
  · have hcount : n ≤ length / size := (Nat.le_div_iff_mul_le hpos).2 hle
    rw [Nat.min_eq_right hle, Nat.min_eq_left hcount, Nat.mul_div_cancel _ hpos]

/-! ### Buffers -/

/-- A returned value is decoded like an argument. -/
theorem decode_result (d : Decoder) (bytes : Bytes) (t : CType) (name : String) :
    d.decode bytes t .result name = d.decode bytes t .parameter name := by
  have hsequence :
      d.sequenceView bytes t .result name = d.sequenceView bytes t .parameter name := by
    unfold sequenceView
    rw [recordView_usage .result .parameter]
    dsimp only
    split
    · next hseveral => rw [nestedArrayView, nestedArrayView, CType.arrayLengths_result hseveral]
    · rfl
  unfold decode
  rw [hsequence, recordView_usage .result .parameter]
  -- a pointer is the one kind that asks for the usage, and it asks only whether it is lazy
  cases d.registry.kindOf t with
  | objectPointer =>
    have hresult : Usage.result ≠ .lazy := nofun
    have hparameter : Usage.parameter ≠ .lazy := nofun
    dsimp only
    rw [if_neg hresult, if_neg hparameter]
  | _ => rfl

/-- **A row under a given count:** the first elements of the row that is read without one, as many
as the count says. -/
structure Caps (d : Decoder) (bytes : Bytes) (t : CType) (name : String) (elements : List View)
    (n : Nat) : Prop where
  outcome_eq : (d.decode bytes t (.knownSize n) name).outcome = .ok (.array (elements.take n))
  references_start : (d.decode bytes t (.knownSize n) name).references <+:
    (d.decode bytes t .parameter name).references

/-- **Nested arrays under a given count:** the same elements in other groups, and the same
references. -/
structure Regroups (d : Decoder) (bytes : Bytes) (t : CType) (name : String) (elements : List View)
    (n : Nat) : Prop where
  outcome_eq : (d.decode bytes t (.knownSize n) name).outcome =
    .ok (.array (group ((t.arrayLengths (.knownSize n)).drop 1).reverse elements))
  leaves_eq : (View.array
    (group ((t.arrayLengths (.knownSize n)).drop 1).reverse elements)).leaves = elements
  references_eq : (d.decode bytes t (.knownSize n) name).references =
    (d.decode bytes t .parameter name).references

variable {elements : List View}

/-- A given count caps a row. -/
theorem caps_of_isRow (hword : bytes.length < Word.limit) (hrow : d.IsRow t .parameter)
    (h : (d.decode bytes t .parameter name).outcome = .ok (.array elements)) (n : Nat) :
    d.Caps bytes t name elements n := by
  have hknown : d.IsRow t (.knownSize n) :=
    ⟨hrow.dimension, hrow.stored.imp_right fun hpointer => ⟨hpointer.1, nofun, hpointer.2.2⟩⟩
  have hparameter : d.decode bytes t .parameter name = d.arrayView bytes
      (d.recordView bytes .parameter d.config.maxDepth) t.pointee 0 bytes.length name :=
    hrow.decode_eq rfl name
  rw [hparameter] at h
  obtain ⟨elements', helements, heq⟩ := outcome_bind_eq_ok_iff.1 h
  obtain rfl : elements' = elements := View.array.inj (Except.ok.inj heq)
  obtain ⟨size, hsize, hpos, hcount⟩ := exists_of_arrayElements helements
  -- the count is turned into bytes, and the bytes into a count again
  have hcounted : d.countedLength t.pointee bytes.length (.knownSize n) =
      .ok (min bytes.length (Word.mulSaturating n size)) := by
    rw [countedLength, elementSize_eq_sizeOf, hsize]
    rfl
  have htake : elements'.take (min bytes.length (Word.mulSaturating n size) / size) =
      elements'.take n := by
    -- a count beyond the end takes all elements that there are
    rw [count_of_known hword hpos, ← hcount, ← List.take_eq_take_min]
  obtain ⟨houtcome, hreferences⟩ :=
    arrayElements_take helements hsize (Nat.min_le_left _ (Word.mulSaturating n size))
  rw [htake] at houtcome
  have hread : d.decode bytes t (.knownSize n) name = d.arrayView bytes
      (d.recordView bytes .parameter d.config.maxDepth) t.pointee 0
      (min bytes.length (Word.mulSaturating n size)) name := by
    rw [hknown.decode_eq_arrayView hcounted, recordView_usage (.knownSize n) .parameter]
  constructor
  · rw [hread, arrayView, outcome_bind_eq_ok_iff]
    exact ⟨_, houtcome, rfl⟩
  · rw [hread, hparameter, arrayView, arrayView, references_bind_of_silent fun _ => rfl,
      references_bind_of_silent fun _ => rfl]
    exact hreferences

/-- A given count regroups nested arrays. -/
theorem exists_regroups (hlevels : 1 < t.dimension) {view : View}
    (h : (d.decode bytes t .parameter name).outcome = .ok view) :
    ∃ elements, (∀ v ∈ elements, ∀ inner, v ≠ .array inner) ∧ view.leaves = elements ∧
      ∀ n, d.Regroups bytes t name elements n := by
  -- under every usage the same row of base elements is read first
  have hread (usage : Usage) (husage : usage ≠ .lazy) : d.decode bytes t usage name =
      (d.arrayElements bytes (d.recordView bytes .parameter d.config.maxDepth) t.baseType 0
        bytes.length name >>= fun elements =>
          pure (.array (group ((t.arrayLengths usage).drop 1).reverse elements))) := by
    rw [decode_eq_nestedArrayView d bytes husage hlevels, recordView_usage usage .parameter]
    rfl
  have hparameter := hread .parameter (by decide)
  rw [hparameter] at h
  obtain ⟨elements, helements, heq⟩ := outcome_bind_eq_ok_iff.1 h
  cases heq
  -- no element is an array, so the arrays in the view are all made by the grouping
  have hplain : ∀ v ∈ elements, ∀ inner, v ≠ .array inner :=
    ne_array_of_arrayElements ne_array_of_recordView helements
  have hleaves (sizes : List Nat) : (View.array (group sizes elements)).leaves = elements := by
    rw [View.leaves, leavesOf_group, View.leavesOf_of_plain hplain]
  refine ⟨elements, hplain, hleaves _, fun n => ⟨?_, hleaves _, ?_⟩⟩
  · rw [hread (.knownSize n) (by simp), outcome_bind_eq_ok_iff]
    exact ⟨elements, helements, rfl⟩
  · rw [hread (.knownSize n) (by simp), hparameter, references_bind_of_silent fun _ => rfl,
      references_bind_of_silent fun _ => rfl]

/-- **A usage caps or regroups.** Arguments and returned values are decoded the same. A given count
leaves the first elements of a row as they are, and cuts off the others with their references; of
nested arrays it changes the groups, but neither the elements in them nor the references. -/
theorem usage_caps_or_regroups (d : Decoder) (bytes : Bytes) (t : CType) (name : String) :
    d.decode bytes t .result name = d.decode bytes t .parameter name ∧
    ∀ view, (d.decode bytes t .parameter name).outcome = .ok view →
      (d.IsRow t .parameter → bytes.length < Word.limit →
        ∃ elements, view = .array elements ∧ ∀ n, d.Caps bytes t name elements n) ∧
      (1 < t.dimension →
        ∃ elements, (∀ v ∈ elements, ∀ inner, v ≠ .array inner) ∧ view.leaves = elements ∧
          ∀ n, d.Regroups bytes t name elements n) := by
  refine ⟨decode_result d bytes t name, fun view hview => ⟨fun hrow hword => ?_, fun hlevels => ?_⟩⟩
  · have hread := hview
    rw [hrow.decode_eq rfl] at hread
    obtain ⟨elements, -, heq⟩ := outcome_bind_eq_ok_iff.1 hread
    obtain rfl : .array elements = view := Except.ok.inj heq
    exact ⟨elements, rfl, fun n => caps_of_isRow hword hrow hview n⟩
  · exact exists_regroups hlevels hview

/-- Three bytes in a row. -/
def byteRow : List View := [.primitive "7", .primitive "8", .primitive "9"]

/-- The first of two nodes, with its reference; and three bytes behind two pointers, which make a
group of two and one of one, or a group of three. -/
theorem nodes_capped_bytes_regrouped :
    ((nodeDecoder.decode nodePair (CType.simple "node").pointer (.knownSize 1) "list").outcome =
        .ok (.array
          [.struct "node" [("value", .primitive "7UL"), ("next", .primitive "NULL")] true none]) ∧
      (nodeDecoder.decode nodePair (CType.simple "node").pointer (.knownSize 1) "list").references
        <+: [⟨"list[0].next", "head", "(node *)"⟩]) ∧
    (plainDecoder.decode [7, 8, 9] (CType.simple "uint8_t").pointer.pointer .parameter
        "rows").outcome =
      .ok (.array [.array [.primitive "7", .primitive "8"], .array [.primitive "9"]]) ∧
    (plainDecoder.decode [7, 8, 9] (CType.simple "uint8_t").pointer.pointer (.knownSize 3)
        "rows").outcome =
      .ok (.array [.array byteRow]) := by
  have hnodes :
      (nodeDecoder.decode nodePair (CType.simple "node").pointer .parameter "list").outcome =
        .ok (.array
          [.struct "node" [("value", .primitive "7UL"), ("next", .primitive "NULL")] true none,
            .struct "node" [("value", .primitive "9UL"), ("next", .primitive "(node *) 0x30")]
              true none]) := rfl
  have hreferences :
      (nodeDecoder.decode nodePair (CType.simple "node").pointer .parameter "list").references =
        [⟨"list[0].next", "head", "(node *)"⟩] := rfl
  have hrows : (plainDecoder.decode [7, 8, 9] (CType.simple "uint8_t").pointer.pointer .parameter
      "rows").outcome = .ok (.array (group [2] byteRow)) := rfl
  have htwo : group [2] byteRow =
      [.array [.primitive "7", .primitive "8"], .array [.primitive "9"]] := by
    simp [byteRow, group, chunks]
  have hthree : group [3] byteRow = [.array byteRow] := by
    simp [byteRow, group, chunks]
  constructor
  · obtain ⟨-, hcaps⟩ :=
      usage_caps_or_regroups nodeDecoder nodePair (CType.simple "node").pointer "list"
    have hrow : nodeDecoder.IsRow (CType.simple "node").pointer .parameter :=
      ⟨rfl, .inr ⟨rfl, by decide, rfl⟩⟩
    obtain ⟨elements, helements, hcap⟩ := (hcaps _ hnodes).1 hrow (by decide)
    obtain rfl := View.array.inj helements
    have hreports := (hcap 1).references_start
    rw [hreferences] at hreports
    exact ⟨(hcap 1).outcome_eq, hreports⟩
  · obtain ⟨-, hregroups⟩ :=
      usage_caps_or_regroups plainDecoder [7, 8, 9] (CType.simple "uint8_t").pointer.pointer "rows"
    obtain ⟨elements, -, hleaves, hgroups⟩ := (hregroups _ hrows).2 (by decide)
    -- the elements are the leaves of the view
    rw [htwo] at hleaves
    obtain rfl : byteRow = elements := hleaves
    refine ⟨by rw [hrows, htwo], (hgroups 3).outcome_eq.trans ?_⟩
    rw [← hthree]
    rfl

end Decoder

end SymVec

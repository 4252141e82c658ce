import SymVec.Proofs.Compositionality
import SymVec.Proofs.Progress

/-!
# Error exits of the decoder

Every error with which decoding stops has a cause that can be named: a read that does not end in the
buffer, records that are nested too deep, a type that is not known or whose elements have no bytes,
or the size of an array that is asked for and does not exist. Checks that guard against overflow
report a place and a length as well, and these end behind the buffer like those of a read do.

The decoder has further exits, for types that are no records, no enumerations and no primitive
types, and for rows whose elements are pointers or arrays. They are not taken, since a type is asked
for its kind first and its levels are taken off before its elements are read. For the rows this is
said by replacing their reader: whatever another reader does with pointers and arrays, decoding with
it is the same.

* `Traced.FailsOnly` — the errors of a step and of steps in a row;
* `Decoder.Justified` — the causes of errors;
* `Decoder.failsOnly_recordView` — records, by induction on how deep they may be nested;
* `Decoder.recordViewWith_eq` — records by another reader of rows;
* `Decoder.errors_justified` — buffers.
-/

namespace SymVec

/-! ### Errors of steps -/

namespace Traced

variable {α β : Type} {P : DecodeError → Prop}

/-- **Errors.** If the step stops with an error, then with one of these. -/
def FailsOnly (P : DecodeError → Prop) (step : Traced α) : Prop :=
  ∀ e, step.outcome = .error e → P e

theorem failsOnly_pure (a : α) : FailsOnly P (pure a : Traced α) := nofun

theorem failsOnly_fail {e : DecodeError} (h : P e) : FailsOnly P (fail e : Traced α) := by
  intro e' he
  obtain rfl := Except.error.inj he
  exact h

theorem failsOnly_ofLayout {x : Except LayoutError α} (h : ∀ e, x = .error e → P (.layout e)) :
    FailsOnly P (ofLayout x) := by
  intro e he
  change x.mapError DecodeError.layout = .error e at he
  cases x with
  | error error =>
    obtain rfl := Except.error.inj he
    exact h error rfl
  | ok a => cases he

/-- The errors of two steps in a row are those of the one and of the other. -/
theorem FailsOnly.bind {step : Traced α} {next : α → Traced β} (h : FailsOnly P step)
    (hnext : ∀ a, step.outcome = .ok a → FailsOnly P (next a)) : FailsOnly P (step >>= next) := by
  intro e he
  cases hstep : step.outcome with
  | error e' =>
    rw [bind_of_error hstep] at he
    obtain rfl := Except.error.inj he
    exact h e' hstep
  | ok a =>
    rw [bind_of_ok hstep] at he
    exact hnext a hstep e he

theorem failsOnly_mapM {f : α → Traced β} {xs : List α} (h : ∀ x ∈ xs, FailsOnly P (f x)) :
    FailsOnly P (xs.mapM f) := by
  induction xs with
  | nil => exact failsOnly_pure []
  | cons x rest ih =>
    rw [List.mapM_cons]
    refine (h x List.mem_cons_self).bind fun y _ => ?_
    refine (ih fun x' hx' => h x' (List.mem_cons_of_mem _ hx')).bind fun ys _ => ?_
    exact failsOnly_pure _

end Traced

/-! ### Errors of sizes -/

/-- Whether the error says that a type has no size: its base is not known, or the product is no
machine word. -/
def LayoutError.concernsSize : LayoutError → Bool
  | .unknownType _ | .sizeOverflow _ => true
  | _ => false

namespace Registry

variable {r : Registry} {t u : CType}

/-- Asking for a size stops with no other errors. -/
theorem concernsSize_of_sizeUnder {levels : List Level} {e : LayoutError}
    (h : r.sizeUnder t levels = .error e) : e.concernsSize = true := by
  induction levels generalizing e with
  | nil =>
    rw [sizeUnder, baseSize] at h
    -- the lookups of a base type go on from one to the next, and only the last one fails
    repeat' split at h
    all_goals cases h
    rfl
  | cons level inner ih =>
    cases level with
    | pointer =>
      -- a pointer has a size, whatever it points to
      cases h
    | array n =>
      rw [sizeUnder] at h
      cases hinner : r.sizeUnder t inner with
      | error e' =>
        rw [hinner] at h
        obtain rfl := Except.error.inj h
        exact ih hinner
      | ok size =>
        -- the product with the length of the level may overflow
        rw [hinner] at h
        dsimp only [bind, Except.bind] at h
        split at h
        · cases h
        · cases h
          rfl

/-- A known type without levels has a size. -/
theorem exists_size_of_known (hlevels : t.levels = []) (h : r.kindOf t ≠ .unknown) :
    ∃ size, r.sizeOf t = .ok size := by
  rcases r.base_cases hlevels with ⟨-, -, hsize⟩ | ⟨p, -, -, hsize⟩ | ⟨record, -, -, hsize⟩ |
    ⟨e, -, -, hsize⟩ | ⟨hunknown, -⟩
  · exact ⟨_, hsize⟩
  · exact ⟨_, hsize⟩
  · exact ⟨_, hsize⟩
  · exact ⟨_, hsize⟩
  · exact absurd hunknown h

/-- **Element types** of a value, each with the number of records around it: the base type, if there
are levels over it, and the base types of the arrays that are members of its records. -/
inductive ElementType (r : Registry) (t : CType) : Nat → CType → Prop
  | outermost (levels : 0 < t.dimension) : ElementType r t 0 t.baseType
  | member {depth : Nat} {u : CType} {record : Record} {f : Field} (part : r.Part t depth u)
      (isRecord : r.IsRecord u) (recordOf : r.recordOf u = .ok record) (mem : f ∈ record.fields)
      (byValue : Decoder.allArrays f.type = true) (kind : r.kindOf f.type = .array) :
      ElementType r t (depth + 1) f.type.baseType

/-- An element type is that of a part of the value, as many records deep. -/
theorem ElementType.part {depth : Nat} (h : r.ElementType t depth u) : r.Part t depth u := by
  cases h with
  | outermost => exact .whole
  | member part isRecord recordOf mem byValue => exact .member part isRecord recordOf mem byValue

end Registry

namespace Decoder

open Traced Registry

/-- **Justified errors** of decoding a buffer as a value of type `t`. -/
inductive Justified (d : Decoder) (bytes : Bytes) (t : CType) (usage : Usage) : DecodeError → Prop
  /-- The bytes that are asked for do not end in the buffer. -/
  | outOfBounds {offset length : Nat} (beyond : bytes.length < offset + length) :
      Justified d bytes t usage (.outOfBounds offset length bytes.length)
  /-- A record has as many others around it as may be nested in each other. -/
  | tooDeep {u : CType} (part : d.registry.Part t d.config.maxDepth u)
      (isRecord : d.registry.IsRecord u) : Justified d bytes t usage (.tooDeep d.config.maxDepth)
  /-- A part of the value is of no known type. -/
  | unknown {depth : Nat} {u : CType} (part : d.registry.Part t depth u)
      (kind : d.registry.kindOf u = .unknown) :
      Justified d bytes t usage (.unsupported u.displayName)
  /-- The elements of an array have no bytes. -/
  | empty {depth : Nat} {u : CType} (element : d.registry.ElementType t depth u)
      (sizeOf : d.registry.sizeOf u = .ok 0) :
      Justified d bytes t usage (.unsupported u.displayName)
  /-- A member that is an array has no size. -/
  | arrayMember {depth : Nat} {u : CType} {record : Record} {f : Field} {error : LayoutError}
      (part : d.registry.Part t depth u) (isRecord : d.registry.IsRecord u)
      (recordOf : d.registry.recordOf u = .ok record) (mem : f ∈ record.fields)
      (kind : d.registry.kindOf f.type = .array) (sizeOf : d.registry.sizeOf f.type = .error error)
      (concernsSize : error.concernsSize = true) : Justified d bytes t usage (.layout error)
  /-- Elements are counted that have no size. -/
  | counted {n : Nat} {error : LayoutError} (known : usage = .knownSize n)
      (levels : t.dimension = 1) (sizeOf : d.registry.sizeOf t.pointee = .error error)
      (concernsSize : error.concernsSize = true) : Justified d bytes t usage (.layout error)

variable {d : Decoder} {bytes : Bytes} {t : CType} {usage : Usage}

/-! ### Scalars -/

/-- A read fails only beyond the end of the buffer. -/
theorem failsOnly_readBytes (offset n : Nat) :
    FailsOnly (d.Justified bytes t usage) (readBytes bytes offset n) := by
  intro e he
  rw [outcome_readBytes] at he
  split at he
  · cases he
  · next hbeyond =>
    obtain rfl := Except.error.inj he
    exact .outOfBounds (Nat.lt_of_not_le hbeyond)

/-- A type of kind primitive is never refused. -/
theorem failsOnly_primitiveView {u : CType} (hkind : d.registry.kindOf u = .primitive)
    (offset : Nat) : FailsOnly (d.Justified bytes t usage) (primitiveView bytes u offset) := by
  -- the exit for other types is not taken
  obtain ⟨p, hp, -⟩ := primitive_of_kindOf hkind
  unfold primitiveView
  rw [hp]
  exact (failsOnly_readBytes offset p.size).bind fun _ _ => failsOnly_pure _

theorem failsOnly_bitFieldView (f : Field) (p : Primitive) (offset : Nat) :
    FailsOnly (d.Justified bytes t usage) (bitFieldView bytes f p offset) := by
  unfold bitFieldView
  exact (failsOnly_readBytes offset _).bind fun _ _ => failsOnly_pure _

/-- A type of kind enumeration has one. -/
theorem failsOnly_enumerationView {u : CType} (hkind : d.registry.kindOf u = .enumeration)
    (offset : Nat) :
    FailsOnly (d.Justified bytes t usage) (d.enumerationView bytes u offset) := by
  obtain ⟨e, he, -⟩ := enumeration_of_kindOf hkind
  unfold enumerationView
  rw [ofLayout_bind_of_ok he]
  refine (failsOnly_readBytes offset e.size).bind fun run _ => ?_
  dsimp only
  split
  · exact failsOnly_pure _
  · -- an integer that no entry has is a warning
    exact nofun

theorem failsOnly_pointerView (u : CType) (offset : Nat) (access : String) :
    FailsOnly (d.Justified bytes t usage) (d.pointerView bytes u offset access) := by
  unfold pointerView
  refine (failsOnly_readBytes offset _).bind fun run _ => ?_
  dsimp only
  split
  · -- an address that is known is a reference
    exact nofun
  · exact failsOnly_pure _

section Nested

/-- A decoder of nested records stops with justified errors on the records of the value that have
`depth` records around them. -/
def NestedJustified (d : Decoder) (bytes : Bytes) (t : CType) (usage : Usage) (depth : Nat)
    (nested : Nested) : Prop :=
  ∀ (u : CType) (offset : Nat) (access : String), d.registry.Part t depth u →
    d.registry.IsRecord u → FailsOnly (d.Justified bytes t usage) (nested u offset access)

variable {nested : Nested} {depth : Nat} {u : CType} (hword : bytes.length < Word.limit)

section Rows

variable (hnested : d.NestedJustified bytes t usage depth nested)

include hword hnested

/-! ### Arrays -/

/-- A row of elements without levels that have a size. -/
theorem failsOnly_row (hlevels : u.levels = [])
    (hpart : d.registry.IsRecord u → d.registry.Part t depth u) {size : Nat}
    (hsize : d.registry.sizeOf u = .ok size) (hpos : 0 < size) (offset length : Nat)
    (access : String) :
    FailsOnly (d.Justified bytes t usage)
      (d.arrayElements bytes nested u offset length access) := by
  rw [arrayElements_eq_mapM (isElementKind_of_sized hlevels hsize) hsize hpos]
  refine failsOnly_mapM fun i hi => ?_
  have hfit : i * size + size ≤ length := element_within (List.mem_range.1 hi)
  unfold elementStep
  split
  · next hplace =>
    -- the place of an element is no machine word, so the row ends behind every buffer
    have hoverflow : ¬offset + i * size < Word.limit := by
      intro hword
      have hfound := elementPlace_eq_some_iff.2 ⟨hword, rfl⟩
      rw [hplace] at hfound
      cases hfound
    exact failsOnly_fail (.outOfBounds (by omega))
  · next place _ =>
    unfold elementView
    -- an element is read by its kind; an unknown one would have no size
    rcases d.registry.base_cases hlevels with ⟨-, hkind, -⟩ | ⟨p, -, hkind, -⟩ |
      ⟨record, -, hrecord, -⟩ | ⟨e, -, hkind, -⟩ | ⟨-, error, hunsized⟩
    · rw [hkind]
      exact failsOnly_pure _
    · rw [hkind]
      exact failsOnly_primitiveView hkind place
    · have hread := hnested u place s!"{access}[{i}]" (hpart hrecord) hrecord
      rcases hrecord with hkind | hkind <;> rw [hkind] <;> exact hread
    · rw [hkind]
      exact failsOnly_enumerationView hkind place
    · rw [hsize] at hunsized
      cases hunsized

/-- **Rows.** A row is refused only if its elements are of no known type or have no bytes. -/
theorem failsOnly_arrayElements (helement : d.registry.ElementType t depth u) (offset length : Nat)
    (access : String) :
    FailsOnly (d.Justified bytes t usage)
      (d.arrayElements bytes nested u offset length access) := by
  have hpart : d.registry.Part t depth u := helement.part
  -- a type without levels is unknown, or else it has a size, which may be zero
  by_cases hunknown : d.registry.kindOf u = .unknown
  · unfold arrayElements
    rw [hunknown]
    exact failsOnly_fail (.unknown hpart hunknown)
  obtain ⟨size, hsize⟩ := exists_size_of_known hpart.levels hunknown
  rcases Nat.eq_zero_or_pos size with rfl | hpos
  · have hsized : d.elementSize u = .ok 0 := (elementSize_eq_sizeOf d u).trans hsize
    unfold arrayElements
    dsimp only
    rw [isElementKind_of_sized hpart.levels hsize, if_neg (by decide), ofLayout_bind_of_ok hsized,
      if_pos rfl]
    exact failsOnly_fail (.empty helement hsize)
  · exact failsOnly_row hword hnested hpart.levels (fun _ => hpart) hsize hpos _ _ _

/-- Raw bytes are always of a known type, and can only be missing. -/
theorem failsOnly_rawBytesView (offset size : Nat) :
    FailsOnly (d.Justified bytes t usage) (d.rawBytesView bytes nested offset size) := by
  have hbyte : d.registry.sizeOf .rawByte = .ok 1 := rfl
  have hrecord : ¬d.registry.IsRecord .rawByte := not_isRecord_rawByte d.registry
  unfold rawBytesView arrayView
  refine FailsOnly.bind ?_ fun _ _ => failsOnly_pure _
  exact failsOnly_row hword hnested rfl (fun h => absurd h hrecord) hbyte Nat.one_pos _ _ _

end Rows

/-! ### Members -/

section Record

variable (hnested : d.NestedJustified bytes t usage (depth + 1) nested)

include hword hnested

variable {record : Record} {f : Field} (hpart : d.registry.Part t depth u)
  (hrecord : d.registry.IsRecord u) (hof : d.registry.recordOf u = .ok record)
  (hf : f ∈ record.fields)

include hpart hrecord hof hf

/-- A member that is an array is asked for its size first. -/
theorem failsOnly_arrayFieldView (hkind : d.registry.kindOf f.type = .array) (offset : Nat)
    (access : String) :
    FailsOnly (d.Justified bytes t usage)
      (d.arrayFieldView bytes usage nested f.type offset access) := by
  -- the elements of such a member are one record deeper than the record
  have helement (byValue : allArrays f.type = true) :
      d.registry.ElementType t (depth + 1) f.type.baseType :=
    .member hpart hrecord hof hf byValue hkind
  unfold arrayFieldView
  refine FailsOnly.bind (failsOnly_ofLayout fun error herror => ?_) fun size _ => ?_
  · exact .arrayMember hpart hrecord hof hf hkind herror (concernsSize_of_sizeUnder herror)
  split
  · next hone =>
    have byValue : allArrays f.type = true := allArrays_of_dimension_one hkind hone
    rw [CType.pointee_of_dimension_one hone, arrayView]
    exact (failsOnly_arrayElements hword hnested (helement byValue) _ _ _).bind
      fun _ _ => failsOnly_pure _
  · split
    · next byValue =>
      rw [nestedArrayView]
      exact (failsOnly_arrayElements hword hnested (helement byValue) _ _ _).bind
        fun _ _ => failsOnly_pure _
    · exact failsOnly_pure _

/-- **Members.** Each kind of member has its own causes. -/
theorem failsOnly_fieldView (base : Nat) (access : String) :
    FailsOnly (d.Justified bytes t usage)
      (d.fieldView bytes usage nested record f base access) := by
  -- a member without levels is a part of the value itself
  have hmember (hlevels : f.type.levels = []) : d.registry.Part t (depth + 1) f.type := by
    have hinner : d.registry.Part t (depth + 1) f.type.baseType :=
      .member hpart hrecord hof hf (by rw [allArrays, hlevels]; rfl)
    rwa [CType.baseType_of_levels_nil hlevels] at hinner
  unfold fieldView
  split
  · next hplace =>
    -- no machine word, and so beyond the end of every buffer
    have hoverflow : Word.limit ≤ base + f.offset := by simpa [Word.add?] using hplace
    exact failsOnly_fail (.outOfBounds (by omega))
  · next offset _ =>
    dsimp only
    cases hkind : d.registry.kindOf f.type <;> dsimp only
    case primitive =>
      obtain ⟨p, hp, -⟩ := primitive_of_kindOf hkind
      rw [hp]
      dsimp only
      split
      · exact failsOnly_bitFieldView f p offset
      · exact failsOnly_primitiveView hkind offset
    case struct =>
      -- a record that is a member is one record deeper
      have hinner : d.registry.IsRecord f.type := .inl hkind
      exact hnested _ _ _ (hmember hinner.levels) hinner
    case union =>
      have hinner : d.registry.IsRecord f.type := .inr hkind
      exact hnested _ _ _ (hmember hinner.levels) hinner
    case enumeration => exact failsOnly_enumerationView hkind offset
    case array => exact failsOnly_arrayFieldView hword hnested hpart hrecord hof hf hkind _ _
    case objectPointer => exact failsOnly_pointerView _ _ _
    case functionPointer => exact failsOnly_pure _
    case unknown =>
      have hlevels : f.type.levels = [] := levels_of_kindOf hkind (by decide) (by decide)
      exact failsOnly_fail (.unknown (hmember hlevels) hkind)

/-- A pointer in a union is not read, and so has no cause of an error. -/
theorem failsOnly_unionMemberView (base : Nat) (access : String) :
    FailsOnly (d.Justified bytes t usage)
      (d.unionMemberView bytes usage nested record f base access) := by
  unfold unionMemberView
  split
  · exact failsOnly_pure _
  · exact failsOnly_fieldView hword hnested hpart hrecord hof hf base access

end Record

omit hword in
theorem failsOnly_membersView {member : Field → Traced View} {fields : List Field}
    (h : ∀ f ∈ fields, FailsOnly (d.Justified bytes t usage) (member f)) :
    FailsOnly (d.Justified bytes t usage) (membersView member fields) :=
  failsOnly_mapM fun f hf => (h f hf).bind fun _ _ => failsOnly_pure _

end Nested

/-! ### Records -/

/-- **Records** with `depth` others around them, when the other levels are left. -/
theorem failsOnly_recordView (hword : bytes.length < Word.limit) {depth levels : Nat}
    (hlimit : depth + levels = d.config.maxDepth) :
    d.NestedJustified bytes t usage depth (d.recordView bytes usage levels) := by
  induction levels generalizing depth with
  | zero =>
    -- all levels are taken by the records around this one
    intro u offset access hpart hrecord
    obtain rfl : depth = d.config.maxDepth := hlimit
    exact failsOnly_fail (.tooDeep hpart hrecord)
  | succ levels ih =>
    have hnested : d.NestedJustified bytes t usage (depth + 1) (d.recordView bytes usage levels) :=
      ih (by omega)
    intro u offset access hpart hrecord
    obtain ⟨record, hof, -⟩ := hrecord.exists_record
    unfold recordView
    rw [ofLayout_bind_of_ok hof]
    cases record.kind with
    | struct =>
      dsimp only
      unfold structView
      refine FailsOnly.bind (failsOnly_membersView fun f hf => ?_) fun fields _ => ?_
      · exact failsOnly_fieldView hword hnested hpart hrecord hof hf offset access
      · dsimp only
        split
        · exact (failsOnly_rawBytesView hword hnested _ _).bind fun _ _ => failsOnly_pure _
        · exact failsOnly_pure _
    | union =>
      dsimp only
      unfold unionView
      refine (failsOnly_rawBytesView hword hnested _ _).bind fun raw _ => ?_
      refine FailsOnly.bind (failsOnly_membersView fun f hf => ?_) fun _ _ => failsOnly_pure _
      exact failsOnly_unionMemberView hword hnested hpart hrecord hof hf offset access

/-! ### Buffers -/

/-- **Rows over the whole buffer**, grouped or not. -/
theorem failsOnly_sequenceView (hword : bytes.length < Word.limit) (hlevels : 0 < t.dimension)
    (name : String) :
    FailsOnly (d.Justified bytes t usage) (d.sequenceView bytes t usage name) := by
  have hnested : d.NestedJustified bytes t usage 0 (d.recordView bytes usage d.config.maxDepth) :=
    failsOnly_recordView hword (Nat.zero_add _)
  have helements (length : Nat) := failsOnly_arrayElements hword hnested
    (.outermost hlevels) 0 length name
  unfold sequenceView
  dsimp only
  split
  · exact (helements _).bind fun _ _ => failsOnly_pure _
  · have hone : t.dimension = 1 := by omega
    refine FailsOnly.bind (failsOnly_ofLayout fun error herror => ?_) fun length _ => ?_
    · -- without a given count the length is that of the buffer
      rw [countedLength] at herror
      cases usage with
      | knownSize n =>
        rw [elementSize_eq_sizeOf] at herror
        change (d.registry.sizeOf t.pointee).map _ = .error error at herror
        cases hsize : d.registry.sizeOf t.pointee with
        | error error' =>
          rw [hsize] at herror
          obtain rfl := Except.error.inj herror
          exact .counted rfl hone hsize (concernsSize_of_sizeUnder hsize)
        | ok size =>
          rw [hsize] at herror
          cases herror
      | _ => cases herror
    · rw [CType.pointee_of_dimension_one hone, arrayView]
      exact (helements length).bind fun _ _ => failsOnly_pure _

/-- **Buffers.** Whatever the kind of the type, decoding stops with justified errors only. -/
theorem failsOnly_decode (hword : bytes.length < Word.limit) (name : String) :
    FailsOnly (d.Justified bytes t usage) (d.decode bytes t usage name) := by
  -- no record is around the value itself
  have hnested : d.NestedJustified bytes t usage 0 (d.recordView bytes usage d.config.maxDepth) :=
    failsOnly_recordView hword (Nat.zero_add _)
  unfold decode
  cases hkind : d.registry.kindOf t <;> dsimp only
  case primitive => exact failsOnly_primitiveView hkind 0
  case struct =>
    exact hnested t 0 name (Part.self_of_isRecord (.inl hkind)) (.inl hkind)
  case union =>
    exact hnested t 0 name (Part.self_of_isRecord (.inr hkind)) (.inr hkind)
  case enumeration => exact failsOnly_enumerationView hkind 0
  case array => exact failsOnly_sequenceView hword (dimension_pos_of_array hkind) name
  case objectPointer =>
    split
    · exact failsOnly_pointerView t 0 name
    · split
      · exact failsOnly_pure _
      · exact failsOnly_sequenceView hword (dimension_pos_of_objectPointer hkind) name
  case functionPointer => exact failsOnly_pure _
  case unknown =>
    -- without levels the value is its own base
    have hlevels : t.levels = [] := levels_of_kindOf hkind (by decide) (by decide)
    have hself : d.registry.Part t 0 t.baseType := .whole
    rw [CType.baseType_of_levels_nil hlevels] at hself
    exact failsOnly_fail (.unknown hself hkind)

/-! ### Other readers of rows -/

/-- **Reader of rows:** the elements of a type from a place on, in so many bytes and under a path,
by a decoder of nested records. -/
abbrev RowReader := Nested → CType → Nat → Nat → String → Traced (List View)

section RowReader

variable (d : Decoder) (bytes : Bytes) (rows : RowReader)

/-- A row as an array. -/
def arrayViewWith (nested : Nested) (t : CType) (offset length : Nat) (access : String) :
    Traced View := do
  let elements ← rows nested t offset length access
  pure (.array elements)

/-- A row as an array of arrays. -/
def nestedArrayViewWith (nested : Nested) (usage : Usage) (t : CType) (offset length : Nat)
    (access : String) : Traced View := do
  let elements ← rows nested t.baseType offset length access
  pure (.array (group ((t.arrayLengths usage).drop 1).reverse elements))

/-- A member that is an array, by another reader of rows. -/
def arrayFieldViewWith (usage : Usage) (nested : Nested) (t : CType) (offset : Nat)
    (access : String) : Traced View := do
  let size ← Traced.ofLayout (d.registry.sizeOf t)
  if t.dimension = 1 then arrayViewWith rows nested t.pointee offset size access
  else if allArrays t then nestedArrayViewWith rows nested usage t offset size access
  else pure (.array (List.replicate (outermostLength t) (.primitive Literal.null)))

/-- A member. Only one that is an array has rows of its own. -/
def fieldViewWith (usage : Usage) (nested : Nested) (record : Record) (f : Field) (base : Nat)
    (access : String) : Traced View :=
  match d.registry.kindOf f.type, Word.add? base f.offset with
  | .array, some offset =>
    d.arrayFieldViewWith rows usage nested f.type offset (memberAccess access f)
  | _, _ => d.fieldView bytes usage nested record f base access

/-- A member of a union. A pointer is left null. -/
def unionMemberViewWith (usage : Usage) (nested : Nested) (record : Record) (f : Field)
    (base : Nat) (access : String) : Traced View :=
  match d.registry.kindOf f.type with
  | .objectPointer => pure (.primitive Literal.null)
  | _ => d.fieldViewWith bytes rows usage nested record f base access

/-- A structure by another reader of rows, which its members and its raw bytes are read with. -/
def structViewWith (usage : Usage) (nested : Nested) (record : Record) (offset : Nat)
    (access : String) : Traced View := do
  let name := identifier record.name
  let fields ← membersView
    (fun f => d.fieldViewWith bytes rows usage nested record f offset access) record.fields
  let override ←
    if record.hasAnonymousMember then do
      let raw ← arrayViewWith rows nested .rawByte offset record.size ""
      pure (some (Literal.fromBytes name raw.literal))
    else pure none
  pure (.struct name fields record.isAggregate override)

/-- A union by another reader of rows. -/
def unionViewWith (usage : Usage) (nested : Nested) (record : Record) (offset : Nat)
    (access : String) : Traced View := do
  let raw ← arrayViewWith rows nested .rawByte offset record.size ""
  let members ← membersView
    (fun f => d.unionMemberViewWith bytes rows usage nested record f offset access) record.fields
  pure (.union (identifier record.name) raw members)

/-- **Records** by another reader of rows. -/
def recordViewWith (usage : Usage) : (levels : Nat) → Nested
  | 0, _, _, _ => .fail (.tooDeep d.config.maxDepth)
  | levels + 1, t, offset, access => do
    let record ← Traced.ofLayout (d.registry.recordOf t)
    match record.kind with
    | .struct =>
      d.structViewWith bytes rows usage (recordViewWith usage levels) record offset access
    | .union => d.unionViewWith bytes rows usage (recordViewWith usage levels) record offset access

/-- The elements of a buffer by another reader of rows. -/
def sequenceViewWith (t : CType) (usage : Usage) (name : String) : Traced View :=
  let nested := d.recordViewWith bytes rows usage d.config.maxDepth
  if 1 < t.dimension then nestedArrayViewWith rows nested usage t 0 bytes.length name
  else do
    let length ← Traced.ofLayout (d.countedLength t.pointee bytes.length usage)
    arrayViewWith rows nested t.pointee 0 length name

/-- **Decoding** by another reader of rows. -/
def decodeWith (t : CType) (usage : Usage) (name : String) : Traced View :=
  match d.registry.kindOf t with
  | .struct | .union => d.recordViewWith bytes rows usage d.config.maxDepth t 0 name
  | .array => d.sequenceViewWith bytes rows t usage name
  | .objectPointer =>
    if usage ≠ .lazy ∧ t.isCString = false then d.sequenceViewWith bytes rows t usage name
    else d.decode bytes t usage name
  | _ => d.decode bytes t usage name

end RowReader

/-- **A reader that may differ on pointers and arrays**, and reads all other rows as the decoder
does. -/
def ReadsFlatRows (d : Decoder) (bytes : Bytes) (rows : RowReader) : Prop :=
  ∀ (nested : Nested) (u : CType), d.registry.kindOf u ≠ .array →
    d.registry.kindOf u ≠ .objectPointer → rows nested u = d.arrayElements bytes nested u

variable {rows : RowReader} {nested : Nested}

section Flat

variable (h : d.ReadsFlatRows bytes rows)

include h

/-- Rows of a type without levels are read alike. -/
theorem rows_eq (nested : Nested) {u : CType} (hlevels : u.levels = []) :
    rows nested u = d.arrayElements bytes nested u := by
  apply h
  · rw [kindOf, hlevels]
    exact baseKind_ne_array _ _
  · rw [kindOf, hlevels]
    exact baseKind_ne_objectPointer _ _

theorem arrayViewWith_eq (nested : Nested) {u : CType} (hlevels : u.levels = []) :
    arrayViewWith rows nested u = d.arrayView bytes nested u := by
  funext offset length access
  rw [arrayViewWith, arrayView, rows_eq h nested hlevels]

theorem nestedArrayViewWith_eq (nested : Nested) (usage : Usage) (u : CType) :
    nestedArrayViewWith rows nested usage u = d.nestedArrayView bytes nested usage u := by
  funext offset length access
  rw [nestedArrayViewWith, nestedArrayView, rows_eq h nested (CType.levels_baseType u)]

theorem fieldViewWith_eq (usage : Usage) (nested : Nested) (record : Record) (f : Field)
    (base : Nat) (access : String) :
    d.fieldViewWith bytes rows usage nested record f base access =
      d.fieldView bytes usage nested record f base access := by
  unfold fieldViewWith
  split
  · next offset hkind hplace =>
    rw [fieldView, hplace, hkind]
    dsimp only
    -- with all levels taken off, what the rows are of is neither a pointer nor an array
    rw [arrayFieldViewWith, arrayFieldView, nestedArrayViewWith_eq h]
    congr 1
    funext size
    split
    · next hone =>
      rw [CType.pointee_of_dimension_one hone, arrayViewWith_eq h _ (CType.levels_baseType _)]
    · rfl
  · rfl

theorem structViewWith_eq (usage : Usage) (nested : Nested) (record : Record) (offset : Nat)
    (access : String) :
    d.structViewWith bytes rows usage nested record offset access =
      d.structView bytes usage nested record offset access := by
  have hraw : arrayViewWith rows nested .rawByte = d.arrayView bytes nested .rawByte :=
    arrayViewWith_eq h nested rfl
  unfold structViewWith structView rawBytesView
  simp only [hraw, fieldViewWith_eq h]

theorem unionViewWith_eq (usage : Usage) (nested : Nested) (record : Record) (offset : Nat)
    (access : String) :
    d.unionViewWith bytes rows usage nested record offset access =
      d.unionView bytes usage nested record offset access := by
  have hraw : arrayViewWith rows nested .rawByte = d.arrayView bytes nested .rawByte :=
    arrayViewWith_eq h nested rfl
  have hmember (f : Field) :
      d.unionMemberViewWith bytes rows usage nested record f offset access =
        d.unionMemberView bytes usage nested record f offset access := by
    unfold unionMemberViewWith unionMemberView
    -- a pointer is left null by both
    cases d.registry.kindOf f.type with
    | objectPointer => rfl
    | _ => exact fieldViewWith_eq h usage nested record f offset access
  unfold unionViewWith unionView rawBytesView
  simp only [hraw, hmember]

/-- **Records** are decoded alike, however deep they are nested. -/
theorem recordViewWith_eq (usage : Usage) (levels : Nat) :
    d.recordViewWith bytes rows usage levels = d.recordView bytes usage levels := by
  induction levels with
  | zero => rfl
  | succ levels ih =>
    funext t offset access
    unfold recordViewWith recordView
    rw [ih]
    congr 1
    funext record
    cases record.kind with
    | struct => exact structViewWith_eq h usage _ record offset access
    | union => exact unionViewWith_eq h usage _ record offset access

theorem sequenceViewWith_eq (hlevels : 0 < t.dimension) (usage : Usage) (name : String) :
    d.sequenceViewWith bytes rows t usage name = d.sequenceView bytes t usage name := by
  unfold sequenceViewWith sequenceView
  rw [recordViewWith_eq h]
  dsimp only
  split
  · rw [nestedArrayViewWith_eq h]
  · have hone : t.dimension = 1 := by omega
    rw [CType.pointee_of_dimension_one hone, arrayViewWith_eq h _ (CType.levels_baseType _)]

/-- **Buffers** are decoded alike by any reader that reads flat rows as the decoder does. -/
theorem decodeWith_eq (t : CType) (usage : Usage) (name : String) :
    d.decodeWith bytes rows t usage name = d.decode bytes t usage name := by
  unfold decodeWith
  split
  · next hkind => rw [decode, hkind, recordViewWith_eq h]
  · next hkind => rw [decode, hkind, recordViewWith_eq h]
  · next hkind => rw [decode, hkind, sequenceViewWith_eq h (dimension_pos_of_array hkind)]
  · next hkind =>
    split
    · next hrow =>
      rw [decode, hkind, sequenceViewWith_eq h (dimension_pos_of_objectPointer hkind)]
      dsimp only
      -- neither an address nor a string, so it is a row
      rw [if_neg hrow.1, if_neg (by simp [hrow.2])]
    · rfl
  · rfl

end Flat

/-- **Errors are justified.** Decoding stops with no error that has no cause of its own. It never
reads a row of pointers or arrays: by a reader that does anything else with these it is the
same. -/
theorem errors_justified (d : Decoder) (bytes : Bytes) (t : CType) (usage : Usage) (name : String)
    (hword : bytes.length < Word.limit) :
    (∀ e, (d.decode bytes t usage name).outcome = .error e → d.Justified bytes t usage e) ∧
      ∀ rows, d.ReadsFlatRows bytes rows →
        d.decodeWith bytes rows t usage name = d.decode bytes t usage name :=
  ⟨failsOnly_decode hword name, fun _ h => decodeWith_eq h t usage name⟩

/-- A reader that finds nothing where a row of pointers or arrays is asked for. -/
def emptyRows (d : Decoder) (bytes : Bytes) : RowReader := fun nested u =>
  match d.registry.kindOf u with
  | .array | .objectPointer => fun _ _ _ => pure []
  | _ => d.arrayElements bytes nested u

/-- It reads all other rows as the decoder does. -/
theorem readsFlatRows_emptyRows (d : Decoder) (bytes : Bytes) :
    d.ReadsFlatRows bytes (d.emptyRows bytes) := by
  intro nested u harray hpointer
  unfold emptyRows
  split
  · next hkind => exact absurd hkind harray
  · next hkind => exact absurd hkind hpointer
  · rfl

/-- The color in a flag is not all in the buffer, and the arrays of a shape are read without asking
for a row of pointers or arrays. -/
theorem flag_errors_justified :
    shapeDecoder.Justified [97, 0, 0, 1] (.simple "flag") .parameter (.outOfBounds 3 4 4) ∧
      shapeDecoder.decodeWith (List.replicate 24 0xff)
          (shapeDecoder.emptyRows (List.replicate 24 0xff)) (.simple "shape") .parameter "s" =
        shapeDecoder.decode (List.replicate 24 0xff) (.simple "shape") .parameter "s" :=
  ⟨(errors_justified shapeDecoder [97, 0, 0, 1] (.simple "flag") .parameter "f"
      (by decide)).1 _ rfl,
    (errors_justified shapeDecoder (List.replicate 24 0xff) (.simple "shape") .parameter "s"
      (by decide)).2 _ (readsFlatRows_emptyRows _ _)⟩

end Decoder

end SymVec

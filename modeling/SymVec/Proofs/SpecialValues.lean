import SymVec.Proofs.CompositeValues
import SymVec.Proofs.RawBytes
import SymVec.Proofs.SpecialLiterals

/-!
# Special values

A case with an infinity or a NaN in it needs more care than others, and whether a view has one is
told from its literals alone. This agrees with the buffer. The layout of a type says where
floating-point numbers lie in it: at the start if it is one, in each element of an array, and in
each member of a structure or union, where those of a union all lie in the same bytes. A view has a
special number exactly if at one of these slots the exponent bits that are stored are all ones.

Arrays of pointers have no slots, and what a pointer leads to has some only where it is stored in
the buffer itself. A floating-point member with a width of its own would be read as a few bits of a
word, so there must be none.

* `Registry.FloatSlot` — the slots of a type;
* `Decoder.any_iff_of_arrayElements` — rows of elements;
* `Decoder.detects_recordView` — records, by induction on how deep they may be nested;
* `Decoder.DecodesFloat` — the slots of a whole buffer;
* `Decoder.special_values_detected` — decoded views.
-/

namespace SymVec

open Traced

namespace Registry

variable {r : Registry} {t : CType}

/-- **Slots of floating-point numbers** in a value of a type, by the byte at which they start: the
value itself, those of the elements of arrays, and those of the members of structures and unions. -/
inductive FloatSlot (r : Registry) : CType → Nat → Primitive → Prop
  | scalar {t : CType} {p : Primitive} (kind : r.kindOf t = .primitive)
      (primitive : t.primitive? = some p) (floating : p.isFloating = true) : FloatSlot r t 0 p
  | element {t : CType} {total size i start : Nat} {p : Primitive} (kind : r.kindOf t = .array)
      (arrays : Decoder.allArrays t = true) (total_eq : r.sizeOf t = .ok total)
      (size_eq : r.sizeOf t.baseType = .ok size) (within : i < total / size)
      (slot : FloatSlot r t.baseType start p) : FloatSlot r t (i * size + start) p
  | member {t : CType} {record : Record} {f : Field} {start : Nat} {p : Primitive}
      (kind : r.IsRecord t) (record_eq : r.recordOf t = .ok record) (mem : f ∈ record.fields)
      (slot : FloatSlot r f.type start p) : FloatSlot r t (f.offset + start) p

/-- Members that are floating-point numbers have no width of their own. -/
def FloatsWhole (r : Registry) : Prop :=
  ∀ record ∈ r.records.toList, ∀ f ∈ record.fields, ∀ p, r.kindOf f.type = .primitive →
    f.type.primitive? = some p → p.isFloating = true → f.bitSize = none

end Registry

namespace Decoder

variable {r : Registry} {d : Decoder} {bytes : Bytes} {t : CType} {base : Nat} {p : Primitive}

/-- **Special number** at a place in a buffer: the exponent bits that are stored there are all
ones. -/
def SpecialAt (bytes : Bytes) (p : Primitive) (place : Nat) : Prop :=
  place + p.size ≤ bytes.length ∧
    p.format.exponentField (Bytes.word (bytes.window place p.size)) = p.format.specialExponent

/-- Whether a value of the type that starts at `base` has a special number in one of its slots. -/
def HoldsSpecial (r : Registry) (bytes : Bytes) (t : CType) (base : Nat) : Prop :=
  ∃ start p, r.FloatSlot t start p ∧ SpecialAt bytes p (base + start)

/-! ### Slots by the kind of the type -/

/-- A primitive value is its only slot. -/
theorem holdsSpecial_primitive (hkind : r.kindOf t = .primitive) (hp : t.primitive? = some p) :
    HoldsSpecial r bytes t base ↔ p.isFloating = true ∧ SpecialAt bytes p base := by
  constructor
  · rintro ⟨start, q, hslot, hspecial⟩
    cases hslot with
    | scalar _ hq hfloating =>
      obtain rfl : p = q := Option.some.inj (hp.symm.trans hq)
      exact ⟨hfloating, hspecial⟩
    | element harray => cases hkind.symm.trans harray
    | member hrecord => rcases hrecord with h | h <;> cases hkind.symm.trans h
  · rintro ⟨hfloating, hspecial⟩
    exact ⟨0, p, .scalar hkind hp hfloating, hspecial⟩

/-- The slots of an array are those of its elements. -/
theorem holdsSpecial_array (hkind : r.kindOf t = .array) (harrays : allArrays t = true)
    {total size : Nat} (htotal : r.sizeOf t = .ok total) (hsize : r.sizeOf t.baseType = .ok size) :
    HoldsSpecial r bytes t base ↔
      ∃ i < total / size, HoldsSpecial r bytes t.baseType (base + i * size) := by
  constructor
  · rintro ⟨start, p, hslot, hspecial⟩
    cases hslot with
    | scalar h => cases hkind.symm.trans h
    | @element _ total' size' i start p _ _ htotal' hsize' hi hslot =>
      obtain rfl : total = total' := Except.ok.inj (htotal.symm.trans htotal')
      obtain rfl : size = size' := Except.ok.inj (hsize.symm.trans hsize')
      exact ⟨i, hi, start, p, hslot, by rwa [Nat.add_assoc]⟩
    -- a type is of one kind only
    | member hrecord => exact absurd hkind hrecord.ne_array
  · rintro ⟨i, hi, start, p, hslot, hspecial⟩
    exact ⟨_, p, .element hkind harrays htotal hsize hi hslot, by rwa [← Nat.add_assoc]⟩

/-- The slots of a record are those of its members. -/
theorem holdsSpecial_record (hrecord : r.IsRecord t) {record : Record}
    (hof : r.recordOf t = .ok record) :
    HoldsSpecial r bytes t base ↔
      ∃ f ∈ record.fields, HoldsSpecial r bytes f.type (base + f.offset) := by
  constructor
  · rintro ⟨start, p, hslot, hspecial⟩
    cases hslot with
    | scalar h => rcases hrecord with h' | h' <;> cases h.symm.trans h'
    | element harray => exact absurd harray hrecord.ne_array
    | @member _ record' f start p _ hof' hf hslot =>
      obtain rfl : record = record' := Except.ok.inj (hof.symm.trans hof')
      exact ⟨f, hf, start, p, hslot, by rwa [Nat.add_assoc]⟩
  · rintro ⟨f, hf, start, p, hslot, hspecial⟩
    exact ⟨_, p, .member hrecord hof hf hslot, by rwa [← Nat.add_assoc]⟩

/-- Whether values of this kind have slots of floating-point numbers at all. -/
def hasSlots : CType.Kind → Bool
  | .primitive | .array | .struct | .union => true
  | _ => false

/-- Enumerators, pointers and unknown values have no slots. -/
theorem not_holdsSpecial {kind : CType.Kind} (hkind : r.kindOf t = kind)
    (h : hasSlots kind = false) : ¬HoldsSpecial r bytes t base := by
  subst hkind
  rintro ⟨start, p, hslot, -⟩
  cases hslot with
  | scalar hkind => simp [hkind, hasSlots] at h
  | element hkind => simp [hkind, hasSlots] at h
  | member hrecord => rcases hrecord with hkind | hkind <;> simp [hkind, hasSlots] at h

/-- Arrays over pointers hold addresses. -/
theorem not_holdsSpecial_of_pointers (hkind : r.kindOf t = .array)
    (harrays : allArrays t = false) : ¬HoldsSpecial r bytes t base := by
  rintro ⟨start, p, hslot, -⟩
  cases hslot with
  | scalar h => cases hkind.symm.trans h
  | element _ h => cases harrays.symm.trans h
  | member hrecord => exact absurd hkind hrecord.ne_array

/-! ### Steps that detect -/

/-- **Detecting step.** If the step yields a view, then a special number occurs in it exactly if the
statement holds. -/
def Detects (step : Traced View) (P : Prop) : Prop :=
  ∀ view, step.outcome = .ok view → (view.hasSpecial = true ↔ P)

theorem detects_fail (e : DecodeError) (P : Prop) : Detects (fail e) P :=
  fun view h => absurd h (outcome_fail_ne_ok e view)

theorem detects_pure {view : View} {P : Prop} (h : view.hasSpecial = true ↔ P) :
    Detects (pure view) P := by
  intro found hfound
  cases hfound
  exact h

/-- Results of steps that detect hold a special number exactly if one of the statements does. -/
theorem any_iff_of_detects {α : Type} {f : α → Traced View} {P : α → Prop} {xs : List α}
    {views : List View} (h : List.Forall₂ (fun x view => (f x).outcome = .ok view) xs views)
    (hf : ∀ x ∈ xs, Detects (f x) (P x)) :
    views.any View.hasSpecial = true ↔ ∃ x ∈ xs, P x := by
  induction h with
  | nil => simp
  | cons hfirst _ ih =>
    rw [List.any_cons, Bool.or_eq_true, hf _ List.mem_cons_self _ hfirst,
      ih fun x hx => hf x (List.mem_cons_of_mem _ hx)]
    simp

/-! ### Scalars -/

/-- The bytes that are read are those of the slot. -/
theorem detects_primitiveView (hkind : r.kindOf t = .primitive) (offset : Nat) :
    Detects (primitiveView bytes t offset) (HoldsSpecial r bytes t offset) := by
  obtain ⟨p, hp, -⟩ := Registry.primitive_of_kindOf hkind
  intro view h
  unfold primitiveView at h
  rw [hp] at h
  obtain ⟨run, hrun, h⟩ := outcome_bind_eq_ok_iff.1 h
  obtain ⟨hwithin, rfl⟩ := outcome_readBytes_eq_ok_iff.1 hrun
  cases h
  rw [View.hasSpecial, Literal.isSpecial_scalar_iff, holdsSpecial_primitive hkind hp, SpecialAt]
  simp only [hwithin, true_and]

/-- Enumerators are no numbers, whether they are named or cast. -/
theorem detects_enumerationView {P : Prop} (hP : ¬P) (offset : Nat) :
    Detects (d.enumerationView bytes t offset) P := by
  intro view h
  obtain ⟨e, -, h⟩ := outcome_bind_eq_ok_iff.1 h
  obtain ⟨run, -, h⟩ := outcome_bind_eq_ok_iff.1 h
  dsimp only at h
  split at h
  · cases h
    simp [View.hasSpecial, hP]
  · obtain ⟨_, -, h⟩ := outcome_bind_eq_ok_iff.1 h
    cases h
    simp [View.hasSpecial, hP]

theorem hasSpecial_null : (View.primitive Literal.null).hasSpecial = false := by decide

/-- A pointer is written as null or as an address. -/
theorem detects_pointerView {P : Prop} (hP : ¬P) (offset : Nat) (access : String) :
    Detects (d.pointerView bytes t offset access) P := by
  intro view h
  obtain ⟨run, -, h⟩ := outcome_bind_eq_ok_iff.1 h
  dsimp only at h
  split at h
  · obtain ⟨_, -, h⟩ := outcome_bind_eq_ok_iff.1 h
    cases h
    simp [hasSpecial_null, hP]
  · cases h
    simp [View.hasSpecial, Literal.isSpecial_address, hP]

/-- A bit field that is no floating-point number is written by another literal. -/
theorem detects_bitFieldView {f : Field} (hfloating : p.isFloating = false) {P : Prop} (hP : ¬P)
    (offset : Nat) : Detects (bitFieldView bytes f p offset) P := by
  intro view h
  obtain ⟨run, -, h⟩ := outcome_bind_eq_ok_iff.1 h
  cases h
  rw [View.hasSpecial, Literal.isSpecial_scalar_iff, hfloating]
  simp [hP]

/-! ### Arrays -/

section Nested

variable {nested : Nested}
  (hnested : ∀ t, d.registry.IsRecord t → ∀ offset access,
    Detects (nested t offset access) (HoldsSpecial d.registry bytes t offset))

include hnested

/-- An element detects the slots of its own type. -/
theorem detects_elementView (offset : Nat) (access : String) :
    Detects (d.elementView bytes nested (d.registry.kindOf t) t offset access)
      (HoldsSpecial d.registry bytes t offset) := by
  cases hkind : d.registry.kindOf t with
  | primitive => exact detects_primitiveView hkind offset
  | struct => exact hnested t (.inl hkind) offset access
  | union => exact hnested t (.inr hkind) offset access
  | enumeration => exact detects_enumerationView (not_holdsSpecial hkind rfl) offset
  | functionPointer =>
    refine detects_pure ?_
    simp [hasSpecial_null, not_holdsSpecial hkind rfl]
  -- elements of these kinds are refused
  | array | objectPointer | unknown => exact detects_fail _ _

/-- **Elements** hold a special number exactly if one of those that fit does. -/
theorem any_iff_of_arrayElements {offset length : Nat} {access : String} {elements : List View}
    (h : (d.arrayElements bytes nested t offset length access).outcome = .ok elements) {size : Nat}
    (hsize : d.registry.sizeOf t = .ok size) :
    elements.any View.hasSpecial = true ↔
      ∃ i < length / size, HoldsSpecial d.registry bytes t (offset + i * size) := by
  obtain ⟨size', hsize', hpos, -⟩ := exists_of_arrayElements h
  obtain rfl : size = size' := Except.ok.inj (hsize.symm.trans hsize')
  -- each element is a step of its own, at a place that depends on its number alone
  rw [arrayElements_eq_mapM (isElementKind_of_arrayElements h) hsize hpos] at h
  have hsteps : ∀ i ∈ List.range (length / size),
      Detects (d.elementStep bytes nested t size offset length access i)
        (HoldsSpecial d.registry bytes t (offset + i * size)) := by
    intro i _
    unfold elementStep
    split
    · exact detects_fail _ _
    · next place hplace =>
      obtain ⟨-, rfl⟩ := elementPlace_eq_some_iff.1 hplace
      exact detects_elementView hnested _ _
  rw [any_iff_of_detects (outcome_mapM_eq_ok_iff.1 h) hsteps]
  simp only [List.mem_range]

omit hnested in
/-- Grouping leaves the elements as they are. -/
theorem any_group (sizes : List Nat) (elements : List View) :
    (group sizes elements).any View.hasSpecial = elements.any View.hasSpecial := by
  induction sizes generalizing elements with
  | nil => rfl
  | cons size outer ih =>
    unfold group
    split
    · rfl
    · next hsize =>
      -- groups are arrays of what was there before
      have hrow : ∀ runs : List (List View),
          (runs.map View.array).any View.hasSpecial = runs.flatten.any View.hasSpecial := by
        intro runs
        rw [List.any_map, List.any_flatten]
        congr 1
        funext run
        exact View.anySpecial_eq_any run
      rw [ih, hrow, chunks_flatten (Nat.pos_of_ne_zero hsize)]

/-- An array detects what its elements do, and so does an array of arrays. -/
theorem detects_arrayView {offset length : Nat} {access : String} {P : Prop}
    (hP : ∀ size, d.registry.sizeOf t = .ok size →
      (P ↔ ∃ i < length / size, HoldsSpecial d.registry bytes t (offset + i * size))) :
    Detects (d.arrayView bytes nested t offset length access) P := by
  intro view h
  obtain ⟨elements, helements, h⟩ := outcome_bind_eq_ok_iff.1 h
  cases h
  obtain ⟨size, hsize, -, -⟩ := exists_of_arrayElements helements
  rw [View.hasSpecial, View.anySpecial_eq_any, any_iff_of_arrayElements hnested helements hsize,
    hP size hsize]

/-- In an array of arrays the elements of the base type count. -/
theorem detects_nestedArrayView {usage : Usage} {offset length : Nat} {access : String} {P : Prop}
    (hP : ∀ size, d.registry.sizeOf t.baseType = .ok size →
      (P ↔ ∃ i < length / size, HoldsSpecial d.registry bytes t.baseType (offset + i * size))) :
    Detects (d.nestedArrayView bytes nested usage t offset length access) P := by
  intro view h
  obtain ⟨elements, helements, h⟩ := outcome_bind_eq_ok_iff.1 h
  cases h
  obtain ⟨size, hsize, -, -⟩ := exists_of_arrayElements helements
  rw [View.hasSpecial, View.anySpecial_eq_any, any_group,
    any_iff_of_arrayElements hnested helements hsize, hP size hsize]

/-- An array of arrays of pointers is left null. -/
theorem detects_arrayFieldView {usage : Usage} (hkind : d.registry.kindOf t = .array) (offset : Nat)
    (access : String) :
    Detects (d.arrayFieldView bytes usage nested t offset access)
      (HoldsSpecial d.registry bytes t offset) := by
  intro view h
  obtain ⟨total, htotal, h⟩ := outcome_bind_eq_ok_iff.1 h
  rw [outcome_ofLayout_eq_ok_iff] at htotal
  -- all arrays together hold as many values of the base type as fit
  have hall : allArrays t = true → ∀ size, d.registry.sizeOf t.baseType = .ok size →
      (HoldsSpecial d.registry bytes t offset ↔ ∃ i < total / size,
        HoldsSpecial d.registry bytes t.baseType (offset + i * size)) :=
    fun harrays size hsize => holdsSpecial_array hkind harrays htotal hsize
  split at h
  · next hone =>
    rw [CType.pointee_of_dimension_one hone] at h
    exact detects_arrayView hnested (hall (allArrays_of_dimension_one hkind hone)) view h
  · split at h
    · next harrays => exact detects_nestedArrayView hnested (hall harrays) view h
    · next hpointers =>
      cases h
      have hnone : ¬HoldsSpecial d.registry bytes t offset :=
        not_holdsSpecial_of_pointers hkind (Bool.eq_false_iff.2 hpointers)
      rw [View.hasSpecial, View.anySpecial_eq_any, List.any_eq_true]
      refine iff_of_false ?_ hnone
      rintro ⟨null, hnull, hspecial⟩
      rw [List.eq_of_mem_replicate hnull, hasSpecial_null] at hspecial
      cases hspecial

/-! ### Members -/

/-- A member detects the slots of its type, from where it lies in the record. -/
theorem detects_fieldView {usage : Usage} {record : Record} {f : Field}
    (hwhole : ∀ p, d.registry.kindOf f.type = .primitive → f.type.primitive? = some p →
      p.isFloating = true → f.bitSize = none) (base : Nat) (access : String) :
    Detects (d.fieldView bytes usage nested record f base access)
      (HoldsSpecial d.registry bytes f.type (base + f.offset)) := by
  unfold fieldView
  split
  · exact detects_fail _ _
  · next offset hoffset =>
    obtain ⟨-, rfl⟩ := Word.add?_eq_some_iff.1 hoffset
    dsimp only
    cases hkind : d.registry.kindOf f.type with
    | primitive =>
      dsimp only
      split
      · exact detects_fail _ _
      · next p hp =>
        split
        · next hbits =>
          -- a floating-point number is no bit field
          have hfloating : p.isFloating = false := by
            refine Bool.eq_false_iff.2 fun hfloating => ?_
            obtain ⟨width, hwidth⟩ := Field.exists_width_of_isBitField hbits
            rw [hwhole p hkind hp hfloating] at hwidth
            cases hwidth
          refine detects_bitFieldView hfloating ?_ _
          rw [holdsSpecial_primitive hkind hp, hfloating]
          exact fun h => Bool.false_ne_true h.1
        · exact detects_primitiveView hkind _
    | struct => exact hnested f.type (.inl hkind) _ _
    | union => exact hnested f.type (.inr hkind) _ _
    | enumeration => exact detects_enumerationView (not_holdsSpecial hkind rfl) _
    | array => exact detects_arrayFieldView hnested hkind _ _
    | objectPointer => exact detects_pointerView (not_holdsSpecial hkind rfl) _ _
    | functionPointer =>
      refine detects_pure ?_
      simp [View.hasSpecial, not_holdsSpecial hkind rfl]
    | unknown => exact detects_fail _ _

/-- A member of a union is read like one of a structure. A pointer is left null. -/
theorem detects_recordMemberView {usage : Usage} {record : Record} {f : Field}
    (hwhole : ∀ p, d.registry.kindOf f.type = .primitive → f.type.primitive? = some p →
      p.isFloating = true → f.bitSize = none) (base : Nat) (access : String) :
    Detects (d.recordMemberView bytes usage nested record f base access)
      (HoldsSpecial d.registry bytes f.type (base + f.offset)) := by
  have hfield : Detects (d.fieldView bytes usage nested record f base access)
      (HoldsSpecial d.registry bytes f.type (base + f.offset)) :=
    detects_fieldView hnested hwhole base access
  unfold recordMemberView
  split
  · exact hfield
  · unfold unionMemberView
    split
    · next hkind =>
      refine detects_pure ?_
      simp [hasSpecial_null, not_holdsSpecial hkind rfl]
    · exact hfield

end Nested

/-! ### Records -/

/-- A value with parts is special if a part is. -/
theorem hasSpecial_eq_any {view : View} (h : view.isLeaf = false) :
    view.hasSpecial = view.children.any View.hasSpecial := by
  cases view with
  | array elements => exact View.anySpecial_eq_any elements
  | struct name fields _ _ => exact View.anyMemberSpecial_eq_any fields
  | union name raw members => exact View.anyMemberSpecial_eq_any members
  | primitive | string | functionPointer | enumerator | void => cases h

/-- Records, by induction on how deep they may be nested. -/
theorem detects_recordView (hwhole : d.registry.FloatsWhole) (usage : Usage) (levels : Nat)
    (t : CType) (hrecord : d.registry.IsRecord t) (offset : Nat) (access : String) :
    Detects (d.recordView bytes usage levels t offset access)
      (HoldsSpecial d.registry bytes t offset) := by
  induction levels generalizing t offset access with
  | zero =>
    -- a record that is too deep has no view
    exact detects_fail _ _
  | succ levels ih =>
    intro view h
    obtain ⟨record, hof, -⟩ := hrecord.exists_record
    obtain ⟨hmembers, -⟩ := exists_of_recordView hof h
    rw [hasSpecial_eq_any (isComposite_of_recordView h).not_isLeaf,
      holdsSpecial_record hrecord hof]
    refine any_iff_of_detects hmembers fun f hf => ?_
    exact detects_recordMemberView ih
      (hwhole record (Registry.mem_records_of_recordOf hof) f hf) offset access

/-! ### Buffers -/

/-- Whether the buffer of a type holds elements one after another: the outermost level of the type
is an array, or a pointer to values that are stored in the buffer. -/
def IsSequence (d : Decoder) (t : CType) (usage : Usage) : Prop :=
  d.registry.kindOf t = .array ∨
    d.registry.kindOf t = .objectPointer ∧ usage ≠ .lazy ∧ t.isCString = false

/-- The bytes of a buffer of `length` bytes that are read as elements. -/
def storedLength (d : Decoder) (t : CType) (usage : Usage) (length : Nat) :
    Except LayoutError Nat :=
  if 1 < t.dimension then .ok length else d.countedLength t.pointee length usage

/-- **Decoded floating-point numbers** of a buffer: those in the slots of the value, or of each of
its elements. -/
inductive DecodesFloat (d : Decoder) (bytes : Bytes) (t : CType) (usage : Usage) :
    Nat → Primitive → Prop
  | value {place : Nat} {p : Primitive} (single : ¬d.IsSequence t usage)
      (slot : d.registry.FloatSlot t place p) : DecodesFloat d bytes t usage place p
  | element {length size i start : Nat} {p : Primitive} (sequence : d.IsSequence t usage)
      (length_eq : d.storedLength t usage bytes.length = .ok length)
      (size_eq : d.registry.sizeOf t.baseType = .ok size) (within : i < length / size)
      (slot : d.registry.FloatSlot t.baseType start p) :
      DecodesFloat d bytes t usage (i * size + start) p

/-- Whether a floating-point number that is decoded from the buffer is special. -/
def DecodesSpecial (d : Decoder) (bytes : Bytes) (t : CType) (usage : Usage) : Prop :=
  ∃ place p, d.DecodesFloat bytes t usage place p ∧ SpecialAt bytes p place

variable {usage : Usage}

/-- Such a buffer has the slots of its value. -/
theorem decodesSpecial_of_single (h : ¬d.IsSequence t usage) :
    d.DecodesSpecial bytes t usage ↔ HoldsSpecial d.registry bytes t 0 := by
  constructor
  · rintro ⟨place, p, hfloat, hspecial⟩
    cases hfloat with
    | value _ hslot => exact ⟨place, p, hslot, by rwa [Nat.zero_add]⟩
    | element hsequence => exact absurd hsequence h
  · rintro ⟨place, p, hslot, hspecial⟩
    exact ⟨place, p, .value h hslot, by rwa [Nat.zero_add] at hspecial⟩

/-- Such a buffer has the slots of its elements. -/
theorem decodesSpecial_of_sequence (h : d.IsSequence t usage) {length size : Nat}
    (hlength : d.storedLength t usage bytes.length = .ok length)
    (hsize : d.registry.sizeOf t.baseType = .ok size) :
    d.DecodesSpecial bytes t usage ↔
      ∃ i < length / size, HoldsSpecial d.registry bytes t.baseType (0 + i * size) := by
  constructor
  · rintro ⟨place, p, hfloat, hspecial⟩
    cases hfloat with
    | value hsingle => exact absurd h hsingle
    | @element length' size' i start _ _ hlength' hsize' hi hslot =>
      obtain rfl : length = length' := Except.ok.inj (hlength.symm.trans hlength')
      obtain rfl : size = size' := Except.ok.inj (hsize.symm.trans hsize')
      exact ⟨i, hi, start, p, hslot, by rwa [Nat.zero_add]⟩
  · rintro ⟨i, hi, start, p, hslot, hspecial⟩
    exact ⟨_, p, .element h hlength hsize hi hslot, by rwa [Nat.zero_add] at hspecial⟩

theorem dimension_pos_of_isSequence (h : d.IsSequence t usage) : 0 < t.dimension := by
  rcases h with h | ⟨h, -⟩
  · exact Registry.dimension_pos_of_array h
  · exact Registry.dimension_pos_of_objectPointer h

/-- Only arrays and pointers can be sequences. -/
theorem not_isSequence_of_kindOf {kind : CType.Kind} (h : d.registry.kindOf t = kind)
    (harray : kind ≠ .array) (hpointer : kind ≠ .objectPointer) : ¬d.IsSequence t usage := by
  subst h
  rintro (h | ⟨h, -⟩)
  · exact harray h
  · exact hpointer h

/-- Decoding a sequence detects the special numbers of its elements. -/
theorem detects_sequenceView (hwhole : d.registry.FloatsWhole) (h : d.IsSequence t usage)
    (name : String) :
    Detects (d.sequenceView bytes t usage name) (d.DecodesSpecial bytes t usage) := by
  have hnested : ∀ t, d.registry.IsRecord t → ∀ offset access,
      Detects (d.recordView bytes usage d.config.maxDepth t offset access)
        (HoldsSpecial d.registry bytes t offset) :=
    detects_recordView hwhole usage d.config.maxDepth
  unfold sequenceView
  dsimp only
  split
  · next hmore =>
    -- the whole buffer is read, and grouped afterwards
    refine detects_nestedArrayView hnested fun size hsize => ?_
    exact decodesSpecial_of_sequence h (by rw [storedLength, if_pos hmore]) hsize
  · next hone =>
    -- with one level the pointee is the base type, and the usage tells how many there are
    have hpos := dimension_pos_of_isSequence h
    have hpointee : t.pointee = t.baseType := CType.pointee_of_dimension_one (by omega)
    intro view hview
    obtain ⟨length, hlength, hview⟩ := outcome_bind_eq_ok_iff.1 hview
    rw [outcome_ofLayout_eq_ok_iff] at hlength
    refine detects_arrayView hnested (fun size hsize => ?_) view hview
    rw [hpointee] at hsize ⊢
    exact decodesSpecial_of_sequence h (by rw [storedLength, if_neg hone, hlength]) hsize

/-- Decoding detects the special numbers of the buffer. -/
theorem detects_decode (hwhole : d.registry.FloatsWhole) (name : String) :
    Detects (d.decode bytes t usage name) (d.DecodesSpecial bytes t usage) := by
  -- a value that is no sequence is read at the start of the buffer
  have hsingle : ¬d.IsSequence t usage → ∀ {step : Traced View},
      Detects step (HoldsSpecial d.registry bytes t 0) →
      Detects step (d.DecodesSpecial bytes t usage) := fun h step hstep => by
    rwa [decodesSpecial_of_single h]
  unfold decode
  cases hkind : d.registry.kindOf t with
  | primitive =>
    exact hsingle (not_isSequence_of_kindOf hkind (by decide) (by decide))
      (detects_primitiveView hkind 0)
  | struct =>
    exact hsingle (not_isSequence_of_kindOf hkind (by decide) (by decide))
      (detects_recordView hwhole usage _ t (.inl hkind) 0 name)
  | union =>
    exact hsingle (not_isSequence_of_kindOf hkind (by decide) (by decide))
      (detects_recordView hwhole usage _ t (.inr hkind) 0 name)
  | enumeration =>
    exact hsingle (not_isSequence_of_kindOf hkind (by decide) (by decide))
      (detects_enumerationView (not_holdsSpecial hkind rfl) 0)
  | functionPointer =>
    refine hsingle (not_isSequence_of_kindOf hkind (by decide) (by decide)) (detects_pure ?_)
    simp [View.hasSpecial, not_holdsSpecial hkind rfl]
  | unknown => exact detects_fail _ _
  | array => exact detects_sequenceView hwhole (.inl hkind) name
  | objectPointer =>
    have hpointer : ¬HoldsSpecial d.registry bytes t 0 := not_holdsSpecial hkind rfl
    -- only a pointer whose values are stored in the buffer makes it a sequence
    have hstored : ¬(usage ≠ .lazy ∧ t.isCString = false) → ¬d.IsSequence t usage := by
      rintro hother (h | ⟨-, h⟩)
      · cases hkind.symm.trans h
      · exact hother h
    dsimp only
    split
    · next hlazy =>
      exact hsingle (hstored fun h => h.1 hlazy) (detects_pointerView hpointer 0 name)
    · next hlazy =>
      split
      · next htext =>
        refine hsingle (hstored fun h => ?_) (detects_pure (iff_of_false (by simp [View.hasSpecial])
          hpointer))
        rw [h.2] at htext
        cases htext
      · next htext =>
        exact detects_sequenceView hwhole (.inr ⟨hkind, hlazy, Bool.eq_false_iff.2 htext⟩) name

/-- **Special values.** Where no floating-point member has a width of its own, a decoded view has a
special number exactly if a floating-point number is decoded from the buffer whose exponent bits are
all ones: the value itself, an element, or a member of a structure or union, however deep. No
literal of another scalar or of an address is special, nor is an enumerator, the name of a stub or a
string. -/
theorem special_values_detected (hwhole : d.registry.FloatsWhole) {name : String} {view : View}
    (h : (d.decode bytes t usage name).outcome = .ok view) :
    (view.hasSpecial = true ↔ d.DecodesSpecial bytes t usage) ∧
      (∀ raw bits p type, Literal.isSpecial (Literal.scalar raw bits p type) = true →
        p.isFloating = true ∧ p.format.exponentField raw = p.format.specialExponent) ∧
      (∀ value type dimension, Literal.isSpecial (Literal.address value type dimension) = false) ∧
      ∀ text, (View.enumerator text).hasSpecial = false ∧
        (View.functionPointer text).hasSpecial = false ∧ (View.string text).hasSpecial = false := by
  exact ⟨detects_decode hwhole name view h, fun _ _ _ _ => Literal.isSpecial_scalar_iff.1,
    Literal.isSpecial_address, fun _ => ⟨rfl, rfl, rfl⟩⟩

/-- A four-byte number that is also an integer. -/
def wordRecord : Record where
  name := "word"
  kind := .union
  size := 4
  fields := [⟨"number", .simple "float", 0, none, 0⟩, ⟨"bits", .simple "unsigned", 0, none, 0⟩]

/-- An integer beside it. -/
def sampleRecord : Record where
  name := "sample"
  kind := .struct
  size := 8
  fields := [⟨"count", .int, 0, none, 0⟩, ⟨"value", .simple "word", 4, none, 0⟩]

def sampleDecoder : Decoder where
  registry := .ofLists [wordRecord, sampleRecord] [] 8
  method := "measure"

/-- The bits of an infinity as the integer, and those of minus infinity as the number. -/
def infiniteSample : Bytes := [0, 0, 0x80, 0x7F, 0, 0, 0x80, 0xFF]

/-- The bits of an infinity as the integer, and a zero as the number. -/
def finiteSample : Bytes := [0, 0, 0x80, 0x7F, 0, 0, 0, 0]

/-- Only the number makes a sample special. -/
theorem sample_special_values :
    sampleDecoder.registry.FloatsWhole ∧
    (∃ view, (sampleDecoder.decode infiniteSample (.simple "sample") .parameter "s").outcome =
      .ok view ∧ view.hasSpecial = true) ∧
    ∃ view, (sampleDecoder.decode finiteSample (.simple "sample") .parameter "s").outcome =
      .ok view ∧ view.hasSpecial = false := by
  have hwhole : sampleDecoder.registry.FloatsWhole := by
    -- no member has a width at all
    have hnone : ∀ record ∈ sampleDecoder.registry.records.toList, ∀ f ∈ record.fields,
        f.bitSize = none := by decide
    exact fun record hrecord f hf _ _ _ _ => hnone record hrecord f hf
  obtain ⟨view, hview⟩ : ∃ view, (sampleDecoder.decode infiniteSample (.simple "sample") .parameter
      "s").outcome = .ok view := ⟨_, rfl⟩
  refine ⟨hwhole, ⟨view, hview, ?_⟩, _, rfl, by decide⟩
  -- the slot lies in a member of a member
  refine (special_values_detected hwhole hview).1.2 ⟨4 + (0 + 0), ⟨4, .floating, true⟩, ?_, ?_⟩
  · have hstruct : sampleDecoder.registry.kindOf (.simple "sample") = .struct := by decide
    have hunion : sampleDecoder.registry.kindOf (.simple "word") = .union := by decide
    refine .value (fun h => ?_) (.member (.inl hstruct) rfl
      (List.mem_cons_of_mem _ List.mem_cons_self)
      (.member (.inr hunion) rfl List.mem_cons_self (.scalar rfl rfl rfl)))
    rcases h with h | ⟨h, -⟩ <;> cases hstruct.symm.trans h
  · exact ⟨by decide, by decide⟩

end Decoder

end SymVec

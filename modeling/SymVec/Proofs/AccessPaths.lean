import SymVec.Proofs.PointerAccounts
import SymVec.Proofs.ValueLayouts

/-!
# Access paths

A reference is reported under the path of its pointer: the name of the buffer, then the name of each
member and the index of each element on the way. Following the path in the decoded value leads to
the pointer, which is left null there.

Only an array of arrays is not entered index by index. Its elements are read in a row before they
are grouped, and the path keeps the place in the row, so `m[3].next` is a pointer within
`m[1][1]` if each row has two elements. Such a step is a `PathStep.flat`.

The steps are found along the decoder. What a part of the buffer reports is followed from the view
of that part, and each array or record around it adds the step that leads to the part.

* `PathStep`, `View.follow?` — the steps of a path, and where they lead in a value;
* `Registry.Leads` — where they lead in a type, and at which offset;
* `Decoder.addressed_recordView`, `Decoder.addressed_decode` — reported paths lead to their
  pointers, in the type and in the value;
* `Decoder.paths_followed` — the same for a value that is decoded.
-/

namespace SymVec

/-- A step of an access path. -/
inductive PathStep where
  /-- Into the member of that name. -/
  | member (name : String)
  /-- Into an element of an array. -/
  | element (index : Nat)
  /-- Into an array of arrays, at that place of the row of its values. -/
  | flat (index : Nat)
  deriving DecidableEq, Repr

/-- A step as it is written. A place in a row is written like the index of an element. -/
def PathStep.text : PathStep → String
  | .member name => s!".{name}"
  | .element i => s!"[{i}]"
  | .flat i => s!"[{i}]"

/-- The steps of a path as they are written after the name it starts with. -/
def pathText : List PathStep → String
  | [] => ""
  | step :: rest => step.text ++ pathText rest

namespace View

mutual

/-- The values in nested arrays that are no arrays, in a row. -/
def leaves : View → List View
  | .array elements => leavesOf elements
  | v => [v]

/-- The leaves of several values in a row. -/
def leavesOf : List View → List View
  | [] => []
  | v :: rest => leaves v ++ leavesOf rest

end

/-- The leaves of several values are those of each, in their order. -/
theorem leavesOf_eq_flatMap (vs : List View) : leavesOf vs = vs.flatMap leaves := by
  induction vs with
  | nil => rfl
  | cons v rest ih => rw [leavesOf, ih, List.flatMap_cons]

/-- A value that is no array is its only leaf. -/
theorem leaves_of_ne_array {v : View} (h : ∀ elements, v ≠ .array elements) : leaves v = [v] := by
  cases v with
  | array elements => exact absurd rfl (h elements)
  | _ => rfl

/-- Values that are no arrays are their own leaves. -/
theorem leavesOf_of_plain {vs : List View} (h : ∀ v ∈ vs, ∀ elements, v ≠ .array elements) :
    leavesOf vs = vs := by
  induction vs with
  | nil => rfl
  | cons v rest ih =>
    rw [leavesOf, leaves_of_ne_array (h v List.mem_cons_self),
      ih fun v' hv' => h v' (List.mem_cons_of_mem _ hv'), List.singleton_append]

/-- The part that a step leads to. -/
def part? (v : View) : PathStep → Option View
  | .member name => v.member? name
  | .element i =>
    match v with
    | .array elements => elements[i]?
    | _ => none
  | .flat i => v.leaves[i]?

/-- **Following a path.** The part that the steps lead to, one after another. -/
def follow? : View → List PathStep → Option View
  | v, [] => some v
  | v, step :: rest => (v.part? step).bind fun part => part.follow? rest

/-- The first step is taken, and the others from where it leads. -/
theorem follow?_cons_of_part? {v part : View} {step : PathStep} (h : v.part? step = some part)
    (rest : List PathStep) : v.follow? (step :: rest) = part.follow? rest := by
  rw [follow?, h, Option.bind_some]

end View

namespace Registry

/-- **Where a path leads in a type.** From a value of type `t` in the `length` bytes from an offset
on, the steps lead to a pointer of type `u` at the place. -/
inductive Leads (r : Registry) : CType → Nat → Nat → List PathStep → CType → Nat → Prop
  /-- The value is the pointer. -/
  | here {t : CType} {offset length : Nat} (pointer : r.kindOf t = .objectPointer) :
      Leads r t offset length [] t offset
  /-- The pointer is a member of a structure. -/
  | pointer {t : CType} {offset length : Nat} {record : Record} {f : Field}
      (struct : r.kindOf t = .struct) (recordOf : r.recordOf t = .ok record)
      (mem : f ∈ record.fields) (pointer : r.kindOf f.type = .objectPointer) :
      Leads r t offset length [.member f.name] f.type (offset + f.offset)
  /-- The pointer lies within a member that is stored by value. -/
  | member {t u : CType} {offset length place n : Nat} {steps : List PathStep} {record : Record}
      {f : Field} (isRecord : r.IsRecord t) (recordOf : r.recordOf t = .ok record)
      (mem : f ∈ record.fields) (byValue : Decoder.allArrays f.type = true)
      (sizeOf : r.sizeOf f.type = .ok n)
      (inner : Leads r f.type (offset + f.offset) n steps u place) :
      Leads r t offset length (.member f.name :: steps) u place
  /-- The pointer lies within an element. -/
  | element {t u : CType} {offset length place size i : Nat} {steps : List PathStep}
      (one : t.dimension = 1) (isRecord : r.IsRecord t.baseType)
      (sizeOf : r.sizeOf t.baseType = .ok size) (lt : i < length / size)
      (inner : Leads r t.baseType (offset + i * size) size steps u place) :
      Leads r t offset length (.element i :: steps) u place
  /-- The pointer lies within an element of nested arrays, all of whose elements lie in a row. -/
  | flat {t u : CType} {offset length place size i : Nat} {steps : List PathStep}
      (several : 1 < t.dimension) (isRecord : r.IsRecord t.baseType)
      (sizeOf : r.sizeOf t.baseType = .ok size) (lt : i < length / size)
      (inner : Leads r t.baseType (offset + i * size) size steps u place) :
      Leads r t offset length (.flat i :: steps) u place

/-- Only a pointer is reached without a step. -/
theorem Leads.ne_nil {r : Registry} {t u : CType} {offset length place : Nat}
    {steps : List PathStep} (h : r.Leads t offset length steps u place)
    (hvalue : r.kindOf t ≠ .objectPointer) : steps ≠ [] := by
  cases h with
  | here pointer => exact absurd pointer hvalue
  | pointer | member | element | flat => exact List.cons_ne_nil _ _

/-- What lies within some bytes lies within more bytes. -/
theorem Leads.mono {r : Registry} {t u : CType} {offset length length' place : Nat}
    {steps : List PathStep} (h : r.Leads t offset length steps u place) (hle : length ≤ length') :
    r.Leads t offset length' steps u place := by
  cases h with
  | here pointer => exact .here pointer
  | pointer struct recordOf mem pointer => exact .pointer struct recordOf mem pointer
  | member isRecord recordOf mem byValue sizeOf inner =>
    exact .member isRecord recordOf mem byValue sizeOf inner
  | element one isRecord sizeOf lt inner =>
    exact .element one isRecord sizeOf (Nat.lt_of_lt_of_le lt (Nat.div_le_div_right hle)) inner
  | flat several isRecord sizeOf lt inner =>
    exact .flat several isRecord sizeOf (Nat.lt_of_lt_of_le lt (Nat.div_le_div_right hle)) inner

/-- Every member has a name, and no two members of a record share theirs. -/
def NamesDistinct (r : Registry) : Prop :=
  ∀ record ∈ r.records.toList,
    (record.fields.map (·.name)).Nodup ∧ ∀ f ∈ record.fields, f.isAnonymous = false

instance (r : Registry) : Decidable r.NamesDistinct :=
  inferInstanceAs (Decidable (∀ record ∈ r.records.toList,
    (record.fields.map (·.name)).Nodup ∧ ∀ f ∈ record.fields, f.isAnonymous = false))

end Registry

namespace Decoder

variable {d : Decoder} {bytes : Bytes} {ref : Reference}

/-- **Addressed step.** Each reference that the step reports is that of a pointer to which steps
lead, and if members can be told by their names, then the path is written with these steps, and they
lead to a null pointer in the result. -/
def Addressed (d : Decoder) (bytes : Bytes) (step : Traced View) (access : String)
    (leads : List PathStep → CType → Nat → Prop) : Prop :=
  ∀ ref ∈ step.references, ∃ steps u place, leads steps u place ∧
    d.referenceAt bytes ⟨ref.path, place, u⟩ = some ref ∧
    (d.registry.NamesDistinct → ref.path = access ++ pathText steps ∧
      ∀ view, step.outcome = .ok view → view.follow? steps = some (.primitive Literal.null))

variable {leads : List PathStep → CType → Nat → Prop}

/-- A step that reports nothing has nothing to address. -/
theorem addressed_of_silent {step : Traced View} (h : step.references = []) (access : String) :
    d.Addressed bytes step access leads := by
  intro ref href
  rw [h] at href
  cases href

/-- What the steps lead to may be said less exactly. -/
theorem Addressed.mono {leads' : List PathStep → CType → Nat → Prop} {step : Traced View}
    {access : String} (h : d.Addressed bytes step access leads)
    (hleads : ∀ steps u place, leads steps u place → leads' steps u place) :
    d.Addressed bytes step access leads' := by
  intro ref href
  obtain ⟨steps, u, place, hfound, hrest⟩ := h ref href
  exact ⟨steps, u, place, hleads steps u place hfound, hrest⟩

/-- A silent step may come before. -/
theorem addressed_bind {α : Type} {before : Traced α} {next : α → Traced View} {access : String}
    (hsilent : before.references = [])
    (h : ∀ a, before.outcome = .ok a → d.Addressed bytes (next a) access leads) :
    d.Addressed bytes (before >>= next) access leads := by
  intro ref href
  rcases Traced.mem_references_bind.1 href with href | ⟨a, ha, href⟩
  · rw [hsilent] at href
    cases href
  · obtain ⟨steps, u, place, hleads, hreference, hpath⟩ := h a ha ref href
    refine ⟨steps, u, place, hleads, hreference, fun hnames => ?_⟩
    obtain ⟨htext, hfollow⟩ := hpath hnames
    refine ⟨htext, fun view hview => ?_⟩
    -- the step before has one result only
    obtain ⟨a', ha', hview⟩ := Traced.outcome_bind_eq_ok_iff.1 hview
    cases ha.symm.trans ha'
    exact hfollow view hview

/-- At a pointer the path ends. -/
theorem addressed_pointerView {t : CType} {offset : Nat} (h : leads [] t offset)
    (access : String) : d.Addressed bytes (d.pointerView bytes t offset access) access leads := by
  intro ref href
  by_cases hwithin : offset + d.registry.pointerSize ≤ bytes.length
  · rw [pointerView_of_within ⟨access, offset, t⟩ hwithin] at href ⊢
    have hreference : d.referenceAt bytes ⟨access, offset, t⟩ = some ref :=
      Option.mem_toList.1 href
    obtain ⟨name, hname, rfl⟩ := Option.map_eq_some_iff.1 hreference
    refine ⟨[], t, offset, h, hreference, fun _ => ⟨String.append_empty.symm, ?_⟩⟩
    intro view hview
    cases hview
    rw [View.follow?, slotView, hname]
  · -- an address that cannot be read is not reported
    rw [pointerView, readBytes_of_beyond hwithin] at href
    cases href

/-! ### Elements -/

/-- Grouping keeps the row of the values. -/
theorem leavesOf_group (sizes : List Nat) (elements : List View) :
    View.leavesOf (group sizes elements) = View.leavesOf elements := by
  induction sizes generalizing elements with
  | nil => rfl
  | cons size outer ih =>
    unfold group
    split
    · rfl
    · next hsize =>
      -- a group counts as the leaves of its elements, so groups and elements have the same leaves
      have hinner : ∀ run : List View, View.leaves (.array run) = run.flatMap View.leaves :=
        fun run => View.leavesOf_eq_flatMap run
      calc View.leavesOf (group outer ((chunks size elements).map .array))
          = View.leavesOf ((chunks size elements).map .array) := ih _
        _ = (chunks size elements).flatMap fun run => run.flatMap View.leaves := by
          rw [View.leavesOf_eq_flatMap, List.flatMap_map]
          simp only [hinner]
        _ = (chunks size elements).flatten.flatMap View.leaves := by
          simp only [List.flatMap_def, List.map_flatten, List.flatten_flatten, List.map_map]
          rfl
        _ = View.leavesOf elements := by
          rw [chunks_flatten (Nat.pos_of_ne_zero hsize), View.leavesOf_eq_flatMap]

/-- What elements report is reported by a record among them, at its place. -/
theorem exists_element_of_mem {nested : Nested} {t : CType} {offset length : Nat} {access : String}
    (h : ref ∈ (d.arrayElements bytes nested t offset length access).references) :
    d.registry.IsRecord t ∧ ∃ size i, d.registry.sizeOf t = .ok size ∧ i < length / size ∧
      ref ∈ (nested t (offset + i * size) s!"{access}[{i}]").references ∧
      ∀ elements, (d.arrayElements bytes nested t offset length access).outcome = .ok elements →
        ∃ v, elements[i]? = some v ∧
          (nested t (offset + i * size) s!"{access}[{i}]").outcome = .ok v := by
  -- elements of any other kind report nothing
  have hrecord : d.registry.IsRecord t := by
    by_contra hplain
    obtain ⟨hstruct, hunion⟩ := not_or.1 hplain
    rw [references_arrayElements _ _ _ _ hstruct hunion] at h
    cases h
  refine ⟨hrecord, ?_⟩
  unfold arrayElements at h ⊢
  dsimp only at h ⊢
  split at h
  · cases h
  next hkind =>
  rw [if_neg hkind]
  rcases Traced.mem_references_bind.1 h with h | ⟨size, hsize, h⟩
  · cases h
  have hsize : d.elementSize t = .ok size := Traced.outcome_ofLayout_eq_ok_iff.1 hsize
  rw [Traced.ofLayout_bind_of_ok hsize]
  split at h
  · cases h
  next hzero =>
  rw [if_neg hzero]
  rw [Traced.eachFrom_eq_mapM] at h ⊢
  -- the round of the loop that reports the reference
  obtain ⟨k, i, hi, href, hresult⟩ := Traced.exists_step_of_mem_references h
  obtain ⟨hlt, hi⟩ := List.getElem?_eq_some_iff.1 hi
  rw [List.length_range'] at hlt
  obtain rfl : k = i := by
    rw [List.getElem_range'] at hi
    omega
  split at href
  · cases href
  next place hplace =>
  obtain ⟨-, rfl⟩ := elementPlace_eq_some_iff.1 hplace
  -- an element that is a record is decoded by `nested`
  have hview : d.elementView bytes nested (d.registry.kindOf t) t (offset + k * size)
      s!"{access}[{k}]" = nested t (offset + k * size) s!"{access}[{k}]" := by
    rcases hrecord with hstruct | hunion
    · rw [hstruct, elementView]
    · rw [hunion, elementView]
  rw [elementSize_eq_sizeOf] at hsize
  rw [hview] at href
  refine ⟨size, k, hsize, hlt, href, fun elements helements => ?_⟩
  obtain ⟨v, hv, hround⟩ := hresult elements helements
  rw [hplace] at hround
  dsimp only at hround
  rw [hview] at hround
  exact ⟨v, hv, hround⟩

/-- **Addressed records.** What decodes nested records addresses the pointers of each of them, and
makes no array of it. -/
structure NestedAddressed (d : Decoder) (bytes : Bytes) (nested : Nested) : Prop where
  addressed : ∀ {t offset length access}, d.registry.IsRecord t →
    d.Addressed bytes (nested t offset access) access (d.registry.Leads t offset length)
  ne_array : ∀ {t offset access view}, (nested t offset access).outcome = .ok view →
    ∀ elements, view ≠ .array elements

section Nested

variable {nested : Nested} (hnested : d.NestedAddressed bytes nested)

include hnested

/-- Elements put into a value are addressed by a step into the value, in front of the steps within
the element. -/
theorem addressed_of_elements {base : CType} {offset length : Nat} {access : String}
    {make : List View → View} (index : Nat → PathStep)
    (htext : ∀ i, (index i).text = s!"[{i}]")
    (hleads : ∀ {i size steps u place}, d.registry.IsRecord base →
      d.registry.sizeOf base = .ok size → i < length / size →
      d.registry.Leads base (offset + i * size) size steps u place →
        leads (index i :: steps) u place)
    (hpart : ∀ {elements i v}, (∀ w ∈ elements, ∀ inner, w ≠ .array inner) →
      elements[i]? = some v → (make elements).part? (index i) = some v) :
    d.Addressed bytes
      (d.arrayElements bytes nested base offset length access >>= fun elements =>
        pure (make elements)) access leads := by
  intro ref href
  rw [Traced.references_bind_of_silent fun _ => rfl] at href
  obtain ⟨hrecord, size, i, hsize, hlt, href, hresult⟩ := exists_element_of_mem href
  obtain ⟨steps, u, place, hinner, hreference, hpath⟩ := hnested.addressed hrecord ref href
  refine ⟨index i :: steps, u, place, hleads hrecord hsize hlt hinner, hreference,
    fun hnames => ?_⟩
  obtain ⟨htail, hfollow⟩ := hpath hnames
  -- the path and the steps of the element, each with one step more in front
  constructor
  · calc ref.path = s!"{access}[{i}]" ++ pathText steps := htail
      _ = access ++ (s!"[{i}]" ++ pathText steps) := by
        simp only [String.append_assoc]
        rfl
      _ = access ++ pathText (index i :: steps) := by rw [pathText, htext]
  · intro view hview
    obtain ⟨elements, helements, hview⟩ := Traced.outcome_bind_eq_ok_iff.1 hview
    cases hview
    obtain ⟨v, hv, hround⟩ := hresult elements helements
    -- the elements are records, so none of them is an array
    have hplain : ∀ w ∈ elements, ∀ inner, w ≠ .array inner := by
      intro w hw
      obtain ⟨place', path', hw⟩ := exists_nested_of_mem_elements hrecord helements hw
      exact hnested.ne_array hw
    rw [View.follow?_cons_of_part? (hpart hplain hv)]
    exact hfollow v hround

/-- An array without further levels is entered by the index of an element. -/
theorem addressed_arrayView {t : CType} (hone : t.dimension = 1) (offset length : Nat)
    (access : String) :
    d.Addressed bytes (d.arrayView bytes nested t.pointee offset length access) access
      fun steps u place => steps ≠ [] ∧ d.registry.Leads t offset length steps u place := by
  rw [CType.pointee_of_dimension_one hone]
  refine addressed_of_elements hnested .element (fun _ => rfl) ?_ fun _ hv => hv
  intro i size steps u place hrecord hsize hlt hinner
  exact ⟨List.cons_ne_nil _ _, .element hone hrecord hsize hlt hinner⟩

/-- An array of arrays is entered by the place in the row of its values. -/
theorem addressed_nestedArrayView (usage : Usage) {t : CType} (hseveral : 1 < t.dimension)
    (offset length : Nat) (access : String) :
    d.Addressed bytes (d.nestedArrayView bytes nested usage t offset length access) access
      fun steps u place => steps ≠ [] ∧ d.registry.Leads t offset length steps u place := by
  refine addressed_of_elements hnested .flat (fun _ => rfl) ?_ ?_
  · intro i size steps u place hrecord hsize hlt hinner
    exact ⟨List.cons_ne_nil _ _, .flat hseveral hrecord hsize hlt hinner⟩
  · intro elements i v hplain hv
    -- grouping keeps the row, in which the element has its place
    rw [View.part?, View.leaves, leavesOf_group, View.leavesOf_of_plain hplain]
    exact hv

/-! ### Members -/

/-- A member that is an array is entered if all its levels are arrays. -/
theorem addressed_arrayFieldView (usage : Usage) {t : CType} (ht : d.registry.kindOf t = .array)
    (offset : Nat) (access : String) :
    d.Addressed bytes (d.arrayFieldView bytes usage nested t offset access) access
      fun steps u place => allArrays t = true ∧
        ∃ size, d.registry.sizeOf t = .ok size ∧ d.registry.Leads t offset size steps u place := by
  refine addressed_bind (Traced.references_ofLayout _) fun size hsize => ?_
  rw [Traced.outcome_ofLayout_eq_ok_iff] at hsize
  split
  · next hone =>
    have harrays : allArrays t = true := allArrays_of_dimension_one ht hone
    exact (addressed_arrayView hnested hone offset size access).mono
      fun _ _ _ h => ⟨harrays, size, hsize, h.2⟩
  · next hone =>
    split
    · next harrays =>
      have hsome := Registry.dimension_pos_of_array ht
      have hseveral : 1 < t.dimension := by omega
      exact (addressed_nestedArrayView hnested usage hseveral offset size access).mono
        fun _ _ _ h => ⟨harrays, size, hsize, h.2⟩
    · -- an array of pointers is not entered
      exact addressed_of_silent rfl _

/-- A member is addressed by its name, in front of the steps within it. Pointers are members of
structures only. -/
theorem addressed_fieldView (usage : Usage) {t : CType} {record : Record} {f : Field}
    (isRecord : d.registry.IsRecord t) (recordOf : d.registry.recordOf t = .ok record)
    (mem : f ∈ record.fields)
    (hpointer : d.registry.kindOf f.type = .objectPointer → d.registry.kindOf t = .struct)
    (base length : Nat) (access : String) :
    d.Addressed bytes (d.fieldView bytes usage nested record f base access)
      (memberAccess access f) fun steps u place =>
        d.registry.Leads t base length (.member f.name :: steps) u place := by
  unfold fieldView
  split
  · exact addressed_of_silent rfl _
  · next offset hoffset =>
    obtain ⟨-, rfl⟩ := Word.add?_eq_some_iff.1 hoffset
    -- a record within a record is stored there by value
    have hrecord : d.registry.IsRecord f.type →
        d.Addressed bytes (nested f.type (base + f.offset) (memberAccess access f))
          (memberAccess access f) fun steps u place =>
            d.registry.Leads t base length (.member f.name :: steps) u place := by
      intro hinner
      obtain ⟨inner, -, hsize⟩ := hinner.exists_record
      exact (hnested.addressed hinner).mono
        fun _ _ _ h => .member isRecord recordOf mem hinner.allArrays hsize h
    cases hkind : d.registry.kindOf f.type <;> dsimp only
    case primitive =>
      split
      · exact addressed_of_silent rfl _
      · split
        · exact addressed_of_silent (references_bitFieldView _ _ _) _
        · exact addressed_of_silent (references_primitiveView _ _) _
    case struct => exact hrecord (Or.inl hkind)
    case union => exact hrecord (Or.inr hkind)
    case enumeration => exact addressed_of_silent (references_enumerationView _ _) _
    case array =>
      refine (addressed_arrayFieldView hnested usage hkind _ _).mono ?_
      rintro steps u place ⟨harrays, size, hsize, h⟩
      exact .member isRecord recordOf mem harrays hsize h
    -- the path ends here, and the pointer is a member of a structure
    case objectPointer =>
      exact addressed_pointerView (.pointer (hpointer hkind) recordOf mem hkind) _
    case functionPointer => exact addressed_of_silent rfl _
    case unknown => exact addressed_of_silent rfl _

/-- A member of a union is addressed like one of a structure, but it is no pointer. -/
theorem addressed_unionMemberView (usage : Usage) {t : CType} {record : Record} {f : Field}
    (isRecord : d.registry.IsRecord t) (recordOf : d.registry.recordOf t = .ok record)
    (mem : f ∈ record.fields) (base length : Nat) (access : String) :
    d.Addressed bytes (d.unionMemberView bytes usage nested record f base access)
      (memberAccess access f) fun steps u place =>
        d.registry.Leads t base length (.member f.name :: steps) u place := by
  by_cases hpointer : d.registry.kindOf f.type = .objectPointer
  · -- a pointer is left null without being read
    rw [unionMemberView, hpointer]
    exact addressed_of_silent rfl _
  · have hfield := addressed_fieldView hnested usage isRecord recordOf mem
      (fun h => absurd h hpointer) base length access
    unfold unionMemberView
    split
    · exact addressed_of_silent rfl _
    · exact hfield

end Nested

/-- The first member is decoded, and then the others. -/
theorem membersView_cons (member : Field → Traced View) (first : Field) (rest : List Field) :
    membersView member (first :: rest) =
      member first >>= fun view => membersView member rest >>= fun tail =>
        pure ((first.name, view) :: tail) := by
  unfold membersView
  rw [List.mapM_cons, bind_assoc]
  simp only [pure_bind]

/-- What members report is reported by one of them, whose view is found under its name. -/
theorem exists_member_of_mem {member : Field → Traced View} {fields : List Field}
    (h : ref ∈ (membersView member fields).references) :
    ∃ f ∈ fields, ref ∈ (member f).references ∧ ((fields.map (·.name)).Nodup →
      ∀ named, (membersView member fields).outcome = .ok named →
        ∃ v, named.lookup f.name = some v ∧ (member f).outcome = .ok v) := by
  induction fields with
  | nil => cases h
  | cons first rest ih =>
    rw [membersView_cons] at h ⊢
    rcases Traced.mem_references_bind.1 h with hfirst | ⟨view, -, h⟩
    · -- it is the first member, found under its name at once
      refine ⟨first, List.mem_cons_self, hfirst, fun _ named hnamed => ?_⟩
      obtain ⟨view, hview, hnamed⟩ := Traced.outcome_bind_eq_ok_iff.1 hnamed
      obtain ⟨tail, -, hnamed⟩ := Traced.outcome_bind_eq_ok_iff.1 hnamed
      cases hnamed
      exact ⟨view, List.lookup_cons_self, hview⟩
    · rw [Traced.references_bind_of_silent fun _ => rfl] at h
      obtain ⟨f, hf, href, hlookup⟩ := ih h
      refine ⟨f, List.mem_cons_of_mem _ hf, href, fun hnodup named hnamed => ?_⟩
      obtain ⟨hfresh, hrest⟩ := List.nodup_cons.1 hnodup
      obtain ⟨view', -, hnamed⟩ := Traced.outcome_bind_eq_ok_iff.1 hnamed
      obtain ⟨tail, htail, hnamed⟩ := Traced.outcome_bind_eq_ok_iff.1 hnamed
      cases hnamed
      obtain ⟨v, hv, hstep⟩ := hlookup hrest tail htail
      -- a later member does not have the name of the first one
      have hne : f.name ≠ first.name := by
        intro heq
        have hmem : f.name ∈ rest.map (·.name) := List.mem_map_of_mem hf
        rw [heq] at hmem
        exact hfresh hmem
      refine ⟨v, ?_, hstep⟩
      rw [List.lookup_cons, beq_false_of_ne hne]
      exact hv

/-! ### Records -/

/-- Members of a record are addressed by their names in front, if the record shows its members under
their names. -/
theorem addressed_of_members {t : CType} {record : Record} {offset length : Nat} {access : String}
    {step : Traced View} (member : Field → Traced View)
    (recordOf : d.registry.recordOf t = .ok record)
    (hrefs : ∀ {ref}, ref ∈ step.references → ref ∈ (membersView member record.fields).references)
    (hviews : ∀ {view}, step.outcome = .ok view → ∃ named,
      (membersView member record.fields).outcome = .ok named ∧
        ∀ name, view.member? name = named.lookup name)
    (hmember : ∀ f ∈ record.fields, d.Addressed bytes (member f) (memberAccess access f)
      fun steps u place => d.registry.Leads t offset length (.member f.name :: steps) u place) :
    d.Addressed bytes step access (d.registry.Leads t offset length) := by
  intro ref href
  obtain ⟨f, hf, href, hlookup⟩ := exists_member_of_mem (hrefs href)
  obtain ⟨steps, u, place, hleads, hreference, hpath⟩ := hmember f hf ref href
  refine ⟨.member f.name :: steps, u, place, hleads, hreference, fun hnames => ?_⟩
  obtain ⟨htail, hfollow⟩ := hpath hnames
  obtain ⟨hnodup, hnamed⟩ := hnames record (Registry.mem_records_of_recordOf recordOf)
  constructor
  · -- a member with a name adds it to the path
    calc ref.path = memberAccess access f ++ pathText steps := htail
      _ = s!"{access}.{f.name}" ++ pathText steps := by
        rw [memberAccess, hnamed f hf]
        rfl
      _ = access ++ pathText (.member f.name :: steps) := by
        rw [pathText, PathStep.text]
        simp only [String.append_assoc]
        rfl
  · intro view hview
    obtain ⟨named, hok, hsame⟩ := hviews hview
    obtain ⟨v, hv, hstep⟩ := hlookup hnodup named hok
    have hpart : view.part? (.member f.name) = some v := (hsame f.name).trans hv
    rw [View.follow?_cons_of_part? hpart]
    exact hfollow v hstep

/-- **Records** address the pointers within them, however deep they are nested. -/
theorem addressed_recordView (usage : Usage) (levels length : Nat) {t : CType} {offset : Nat}
    {access : String} (isRecord : d.registry.IsRecord t) :
    d.Addressed bytes (d.recordView bytes usage levels t offset access) access
      (d.registry.Leads t offset length) := by
  induction levels generalizing length t offset access with
  | zero => exact addressed_of_silent rfl _
  | succ levels ih =>
    -- the decoder for the records nested in this one addresses theirs
    have hnested : d.NestedAddressed bytes (d.recordView bytes usage levels) :=
      ⟨ih _, ne_array_of_recordView⟩
    refine addressed_bind (Traced.references_ofLayout _) fun record hrecord => ?_
    rw [Traced.outcome_ofLayout_eq_ok_iff] at hrecord
    obtain ⟨record', hrecord', hkind⟩ := Registry.recordOf_of_kindOf isRecord
    cases hrecord.symm.trans hrecord'
    split
    · -- a structure shows its members as they are decoded
      next hstruct =>
      refine addressed_of_members (fun f =>
        d.fieldView bytes usage (d.recordView bytes usage levels) record f offset access)
        hrecord ?_ ?_ ?_
      · intro ref href
        rwa [references_structView] at href
      · intro view hview
        obtain ⟨fields, override, hfields, rfl⟩ := exists_of_structView hview
        exact ⟨fields, hfields, fun _ => rfl⟩
      · intro f hf
        exact addressed_fieldView hnested usage isRecord hrecord hf (fun _ => hkind.1 hstruct)
          _ _ _
    · refine addressed_of_members (fun f =>
        d.unionMemberView bytes usage (d.recordView bytes usage levels) record f offset access)
        hrecord ?_ ?_ ?_
      · intro ref href
        -- the raw bytes of the union report nothing
        rcases Traced.mem_references_bind.1 href with href | ⟨raw, -, href⟩
        · rw [references_rawBytesView] at href
          cases href
        · rwa [Traced.references_bind_of_silent fun _ => rfl] at href
      · intro view hview
        obtain ⟨raw, -, hview⟩ := Traced.outcome_bind_eq_ok_iff.1 hview
        obtain ⟨members, hmembers, hview⟩ := Traced.outcome_bind_eq_ok_iff.1 hview
        cases hview
        exact ⟨members, hmembers, fun _ => rfl⟩
      · intro f hf
        exact addressed_unionMemberView hnested usage isRecord hrecord hf _ _ _

/-! ### Buffers -/

/-- A given element count only leaves bytes out. -/
theorem countedLength_le {t : CType} {length counted : Nat} {usage : Usage}
    (h : d.countedLength t length usage = .ok counted) : counted ≤ length := by
  unfold countedLength at h
  split at h
  · next n _ =>
    cases hsize : d.elementSize t with
    | error e =>
      rw [hsize] at h
      cases h
    | ok size =>
      rw [hsize] at h
      cases h
      exact Nat.min_le_left _ _
  · cases h
    exact Nat.le_refl _

/-- The elements behind a pointer are addressed like those of an array of as many bytes as are
counted. -/
theorem addressed_sequenceView (usage : Usage) {t : CType} (hlevels : 0 < t.dimension)
    (name : String) :
    d.Addressed bytes (d.sequenceView bytes t usage name) name
      fun steps u place => steps ≠ [] ∧ d.registry.Leads t 0 bytes.length steps u place := by
  have hnested : d.NestedAddressed bytes (d.recordView bytes usage d.config.maxDepth) :=
    ⟨addressed_recordView usage d.config.maxDepth _, ne_array_of_recordView⟩
  unfold sequenceView
  dsimp only
  split
  · next hseveral => exact addressed_nestedArrayView hnested usage hseveral 0 bytes.length name
  · next hone =>
    refine addressed_bind (Traced.references_ofLayout _) fun counted hcounted => ?_
    rw [Traced.outcome_ofLayout_eq_ok_iff] at hcounted
    refine (addressed_arrayView hnested (by omega) 0 counted name).mono fun _ _ _ h => ?_
    -- what is counted lies within the buffer
    exact ⟨h.1, h.2.mono (countedLength_le hcounted)⟩

/-- **Decoding** addresses the pointers of the value. Only a pointer that is an object of its own is
addressed without a step. -/
theorem addressed_decode (bytes : Bytes) (t : CType) (usage : Usage) (name : String) :
    d.Addressed bytes (d.decode bytes t usage name) name fun steps u place =>
      (steps = [] → d.registry.kindOf t = .objectPointer ∧ usage = .lazy) ∧
        d.registry.Leads t 0 bytes.length steps u place := by
  have hsequence (hlevels : 0 < t.dimension) :
      d.Addressed bytes (d.sequenceView bytes t usage name) name fun steps u place =>
        (steps = [] → d.registry.kindOf t = .objectPointer ∧ usage = .lazy) ∧
          d.registry.Leads t 0 bytes.length steps u place :=
    (addressed_sequenceView usage hlevels name).mono fun _ _ _ h =>
      ⟨fun hnil => absurd hnil h.1, h.2⟩
  have hrecord (isRecord : d.registry.IsRecord t) :
      d.Addressed bytes (d.recordView bytes usage d.config.maxDepth t 0 name) name
        fun steps u place => (steps = [] → d.registry.kindOf t = .objectPointer ∧ usage = .lazy) ∧
          d.registry.Leads t 0 bytes.length steps u place :=
    (addressed_recordView usage d.config.maxDepth _ isRecord).mono fun _ _ _ h =>
      ⟨fun hnil => absurd hnil (h.ne_nil isRecord.ne_objectPointer), h⟩
  unfold decode
  cases hkind : d.registry.kindOf t <;> rw [hkind] at hsequence hrecord <;> dsimp only
  case primitive => exact addressed_of_silent (references_primitiveView _ _) _
  case struct => exact hrecord (Or.inl hkind)
  case union => exact hrecord (Or.inr hkind)
  case enumeration => exact addressed_of_silent (references_enumerationView _ _) _
  case functionPointer => exact addressed_of_silent rfl _
  case unknown => exact addressed_of_silent rfl _
  case array => exact hsequence (Registry.dimension_pos_of_array hkind)
  case objectPointer =>
    split
    · -- the buffer is the pointer itself, so no step is taken
      next hlazy => exact addressed_pointerView ⟨fun _ => ⟨rfl, hlazy⟩, .here hkind⟩ name
    · split
      · exact addressed_of_silent rfl _
      · exact hsequence (Registry.dimension_pos_of_objectPointer hkind)

/-- **Paths are followed.** If members can be told by their names and a buffer is decoded, then the
path of each reference is the name of the buffer and steps that can be followed in the value and
lead to a null pointer there. In the type they lead to the pointer that stores the address. -/
theorem paths_followed (hnames : d.registry.NamesDistinct) {t : CType} {usage : Usage}
    {name : String} {view : View} (h : (d.decode bytes t usage name).outcome = .ok view)
    (href : ref ∈ (d.decode bytes t usage name).references) :
    ∃ steps u place, ref.path = name ++ pathText steps ∧
      view.follow? steps = some (.primitive Literal.null) ∧
      d.registry.Leads t 0 bytes.length steps u place ∧
      d.referenceAt bytes ⟨ref.path, place, u⟩ = some ref := by
  obtain ⟨steps, u, place, ⟨-, hleads⟩, hreference, hpath⟩ :=
    addressed_decode bytes t usage name ref href
  obtain ⟨htext, hfollow⟩ := hpath hnames
  exact ⟨steps, u, place, htext, hfollow view h, hleads, hreference⟩

/-- Four nodes, the last of which leads to the known one. -/
def nodeGrid : Bytes := List.replicate 56 0 ++ [0x20, 0, 0, 0, 0, 0, 0, 0]

/-- The type of a grid with two rows of two nodes. -/
def nodeGridType : CType := ((CType.simple "node").array 2).array 2

/-- The reference of the last node of a grid, under its place in the row of all nodes. -/
def nodeGridReference : Reference := ⟨"m[3].next", "head", "(node *)"⟩

/-- A node as it is decoded where its pointer is null. -/
def nullNode : View :=
  .struct "node" [("value", .primitive "0UL"), ("next", .primitive "NULL")] true none

/-- The grid as it is decoded: the nodes in two rows, and the reference under the place in one row.
-/
theorem decode_nodeGrid :
    nodeDecoder.decode nodeGrid nodeGridType .parameter "m" =
      ⟨.ok (.array [.array [nullNode, nullNode], .array [nullNode, nullNode]]),
        [nodeGridReference], []⟩ := by
  -- the nodes are read in a row, and grouping them adds no reference
  have hrow : nodeDecoder.arrayElements nodeGrid
      (nodeDecoder.recordView nodeGrid .parameter nodeDecoder.config.maxDepth)
      nodeGridType.baseType 0 nodeGrid.length "m" =
        ⟨.ok [nullNode, nullNode, nullNode, nullNode], [nodeGridReference], []⟩ := rfl
  have hgroup : group [2] [nullNode, nullNode, nullNode, nullNode] =
      [.array [nullNode, nullNode], .array [nullNode, nullNode]] := by
    simp [group, chunks]
  change nodeDecoder.arrayElements nodeGrid _ nodeGridType.baseType 0 nodeGrid.length "m" >>=
    (fun elements => pure (View.array (group [2] elements))) = _
  rw [hrow, Traced.bind_of_ok rfl, hgroup]
  rfl

/-- The path of the last node is followed by its place in the row of all four. -/
theorem nodeGrid_paths_followed :
    ∃ view steps u place,
      (nodeDecoder.decode nodeGrid nodeGridType .parameter "m").outcome = .ok view ∧
      "m[3].next" = "m" ++ pathText steps ∧
      view.follow? steps = some (.primitive "NULL") ∧
      nodeDecoder.registry.Leads nodeGridType 0 nodeGrid.length steps u place ∧
      nodeDecoder.referenceAt nodeGrid ⟨"m[3].next", place, u⟩ = some nodeGridReference := by
  have hok : (nodeDecoder.decode nodeGrid nodeGridType .parameter "m").outcome = .ok _ :=
    congrArg Traced.outcome decode_nodeGrid
  have href : nodeGridReference ∈
      (nodeDecoder.decode nodeGrid nodeGridType .parameter "m").references := by
    rw [decode_nodeGrid]
    exact List.mem_singleton.2 rfl
  obtain ⟨steps, u, place, htext, hfollow, hleads, hreference⟩ :=
    paths_followed (by decide) hok href
  exact ⟨_, steps, u, place, hok, htext, hfollow, hleads, hreference⟩

/-- **A place in a row is no index.** The path of the last node of a grid cannot be followed index
by index: a grid of two rows has no fourth one. -/
theorem exists_unfollowed_path :
    ∃ view ref, nodeDecoder.registry.NamesDistinct ∧
      (nodeDecoder.decode nodeGrid nodeGridType .parameter "m").outcome = .ok view ∧
      ref ∈ (nodeDecoder.decode nodeGrid nodeGridType .parameter "m").references ∧
      ∀ steps, (∀ i, .flat i ∉ steps) → ref.path = "m" ++ pathText steps →
        view.follow? steps ≠ some (.primitive "NULL") := by
  refine ⟨_, nodeGridReference, by decide, congrArg Traced.outcome decode_nodeGrid, ?_, ?_⟩
  · rw [decode_nodeGrid]
    exact List.mem_singleton.2 rfl
  · intro steps hplain htext hfollow
    -- no other path starts with this index, and no grid of two rows has it
    have hthird : (nodeGridReference.path.toList)[2]? = some '3' := rfl
    rw [htext] at hthird
    match steps with
    | [] => simp [pathText] at hthird
    | .member field :: rest => cases hfollow
    | .element 0 :: rest => simp [pathText, PathStep.text, toString] at hthird
    | .element 1 :: rest =>
      simp [pathText, PathStep.text, toString, Nat.toDigits_of_lt_base] at hthird
    | .element (i + 2) :: rest => cases hfollow
    | .flat i :: rest => exact hplain i List.mem_cons_self

end Decoder

end SymVec

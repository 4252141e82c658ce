import Mathlib.Data.List.Chain
import Mathlib.Data.List.Perm.Subperm
import Mathlib.Data.List.TakeWhile
import Mathlib.Logic.Relation
import SymVec.LazySearch
import SymVec.Proofs.AccessPaths

/-!
# Offsets and layouts

The decoder walks down the layout of a structure and knows each pointer by its place. The search for
lazy objects knows a byte offset, and looks for the member that owns it. Where members keep apart
the two agree: the search finds the pointer that the decoder reads there, as long as only structures
lie around it. Within an array of structures or a union it stops at that member, and reports that
the offset holds no pointer.

The search looks into at most as many structures as there are records, and one more. That is enough,
because no record is met twice on the way to a member.

* `Registry.Separated` — layouts whose members keep apart;
* `Registry.Owns` — the innermost member at an offset, reached through structures only;
* `Registry.fieldOwning_of_owns` — the search for an owner finds it;
* `Registry.Leads.exists_owns` — the owner of the offset of a pointer;
* `Decoder.exists_leads_of_slot` — slots are pointers to which a path leads;
* `LazySearch.pointers_attributed` — what the search takes a decoded pointer to lead to.
-/

namespace SymVec

/-- Where a member starts at or before an offset, a member is found there. -/
theorem Record.exists_memberAt? {record : Record} {offset : Nat} {f : Field}
    (mem : f ∈ record.fields) (hle : f.offset ≤ offset) :
    ∃ g, record.memberAt? offset = some g := by
  have hf : f ∈ record.fieldsByOffset := record.fieldsByOffset_perm.mem_iff.2 mem
  have hsorted := record.fieldsByOffset_sorted
  unfold memberAt?
  cases hfields : record.fieldsByOffset with
  | nil =>
    rw [hfields] at hf
    cases hf
  | cons first rest =>
    rw [hfields] at hf hsorted
    -- the first member by offset does not start later than `f`
    have hfirst : first.offset ≤ f.offset := by
      rcases List.mem_cons.1 hf with rfl | hf
      · exact Nat.le_refl _
      · exact (List.pairwise_cons.1 hsorted).1 f hf
    rw [List.takeWhile_cons_of_pos (by simpa using Nat.le_trans hfirst hle)]
    exact ⟨_, List.getLast?_eq_some_getLast (List.cons_ne_nil _ _)⟩

namespace Registry

variable {r : Registry} {t u w : CType} {record : Record} {f g : Field} {depth offset : Nat}

/-! ### Layouts whose members keep apart -/

/-- The width of a bit field. Only primitive values and enumeration values have one. -/
def bitWidth? (r : Registry) (f : Field) : Option Nat :=
  match r.kindOf f.type with
  | .primitive | .enumeration => f.bitSize
  | _ => none

/-- **Extent** of a member: the bytes that its bits lie in if it is a bit field, and else those of
its type. -/
def extent (r : Registry) (f : Field) : Except LayoutError Nat :=
  match r.bitWidth? f with
  | some width => .ok ((f.bitOffset + width + 7) / 8)
  | none => r.sizeOf f.type

/-- Whether one of two members ends before the other starts. Bit fields may share a byte. -/
def Apart (r : Registry) (f g : Field) : Prop :=
  ((r.bitWidth? f).isSome ∧ (r.bitWidth? g).isSome) ∨
    ∀ m n, r.extent f = .ok m → r.extent g = .ok n →
      f.offset + m ≤ g.offset ∨ g.offset + n ≤ f.offset

theorem Apart.symm (h : r.Apart f g) : r.Apart g f := by
  rcases h with ⟨hf, hg⟩ | h
  · exact Or.inl ⟨hg, hf⟩
  · exact Or.inr fun m n hm hn => (h n m hn hm).symm

instance : Std.Symm r.Apart := ⟨fun _ _ h => h.symm⟩

/-- **Separated layouts.** In every record that a value of the type has by value, each member has an
extent and lies within the record, and the members of every structure keep apart. -/
structure Separated (r : Registry) (t : CType) : Prop where
  within : ∀ {depth u record f}, r.Part t depth u → r.IsRecord u → r.recordOf u = .ok record →
    f ∈ record.fields → ∃ n, r.extent f = .ok n ∧ 0 < n ∧ f.offset + n ≤ record.size
  apart : ∀ {depth u record}, r.Part t depth u → r.kindOf u = .struct →
    r.recordOf u = .ok record → record.fields.Pairwise r.Apart

theorem Separated.congr {s : CType} (h : r.Separated t) (hbase : s.baseType = t.baseType) :
    r.Separated s where
  within hpart := h.within (part_congr hbase hpart)
  apart hpart := h.apart (part_congr hbase hpart)

/-- Members by value of a separated record are separated. -/
theorem Separated.member (h : r.Separated t) (isRecord : r.IsRecord t)
    (recordOf : r.recordOf t = .ok record) (mem : f ∈ record.fields)
    (byValue : Decoder.allArrays f.type = true) : r.Separated f.type where
  within hpart := h.within (hpart.of_member isRecord recordOf mem byValue)
  apart hpart := h.apart (hpart.of_member isRecord recordOf mem byValue)

/-- A member that is no bit field takes the bytes of its type. -/
theorem Separated.exists_size (h : r.Separated t) (isRecord : r.IsRecord t)
    (recordOf : r.recordOf t = .ok record) (mem : f ∈ record.fields)
    (hwhole : r.bitWidth? f = none) :
    ∃ n, r.sizeOf f.type = .ok n ∧ 0 < n ∧ f.offset + n ≤ record.size := by
  obtain ⟨n, hn, hpos, hle⟩ := h.within (Part.self_of_isRecord isRecord) isRecord recordOf mem
  rw [extent, hwhole] at hn
  exact ⟨n, hn, hpos, hle⟩

/-- All but primitive values and enumeration values take whole bytes. -/
theorem bitWidth?_of_kindOf (hprimitive : r.kindOf f.type ≠ .primitive)
    (henumeration : r.kindOf f.type ≠ .enumeration) : r.bitWidth? f = none := by
  unfold bitWidth?
  split
  · next hkind => exact absurd hkind hprimitive
  · next hkind => exact absurd hkind henumeration
  · rfl

theorem bitWidth?_of_isRecord (h : r.IsRecord f.type) : r.bitWidth? f = none := by
  rcases h with hkind | hkind <;> exact bitWidth?_of_kindOf (by simp [hkind]) (by simp [hkind])

theorem bitWidth?_of_array (h : r.kindOf f.type = .array) : r.bitWidth? f = none :=
  bitWidth?_of_kindOf (by simp [h]) (by simp [h])

theorem bitWidth?_of_objectPointer (h : r.kindOf f.type = .objectPointer) :
    r.bitWidth? f = none :=
  bitWidth?_of_kindOf (by simp [h]) (by simp [h])

/-! ### Owners -/

/-- **Owner.** The byte `offset` of a structure of type `t` lies in a member of type `w` that is no
structure itself, and only structures lie around the member. -/
inductive Owns (r : Registry) : CType → Nat → CType → Prop
  | member {t : CType} {record : Record} {f : Field} {n o : Nat} (struct : r.kindOf t = .struct)
      (recordOf : r.recordOf t = .ok record) (mem : f ∈ record.fields)
      (kind : r.kindOf f.type ≠ .struct) (whole : r.bitWidth? f = none)
      (sizeOf : r.sizeOf f.type = .ok n) (lt : o < n) : Owns r t (f.offset + o) f.type
  | nested {t w : CType} {record : Record} {f : Field} {o : Nat} (struct : r.kindOf t = .struct)
      (recordOf : r.recordOf t = .ok record) (mem : f ∈ record.fields)
      (inner : Owns r f.type o w) : Owns r t (f.offset + o) w

theorem Owns.struct (h : r.Owns t offset w) : r.kindOf t = .struct := by
  cases h <;> assumption

/-- What an owner holds lies within the structure. -/
theorem Owns.lt_size (h : r.Owns t offset w) (hlayout : r.Separated t)
    (hrecord : r.recordOf t = .ok record) : offset < record.size := by
  induction h generalizing record with
  | member struct recordOf mem _ whole sizeOf lt =>
    cases recordOf.symm.trans hrecord
    obtain ⟨n, hn, -, hle⟩ := hlayout.exists_size (Or.inl struct) recordOf mem whole
    cases sizeOf.symm.trans hn
    omega
  | nested struct recordOf mem inner ih =>
    cases recordOf.symm.trans hrecord
    have hinner : r.IsRecord _ := Or.inl inner.struct
    obtain ⟨record', hrecord', hsize⟩ := hinner.exists_record
    obtain ⟨n, hn, -, hle⟩ :=
      hlayout.exists_size (Or.inl struct) recordOf mem (bitWidth?_of_isRecord hinner)
    cases hsize.symm.trans hn
    -- the nested structure ends within the outer one
    have hlt := ih (hlayout.member (Or.inl struct) recordOf mem hinner.allArrays)
      hrecord'
    omega

/-- Where members keep apart, the member whose bytes hold an offset is the one found there. -/
theorem memberAt?_of_within {n o : Nat} (hapart : record.fields.Pairwise r.Apart)
    (hextent : ∀ g ∈ record.fields, ∃ m, r.extent g = .ok m ∧ 0 < m) (mem : f ∈ record.fields)
    (whole : r.bitWidth? f = none) (sizeOf : r.sizeOf f.type = .ok n) (lt : o < n) :
    record.memberAt? (f.offset + o) = some f := by
  obtain ⟨g, hg⟩ := Record.exists_memberAt? mem (Nat.le_add_right f.offset o)
  obtain ⟨hmem, hle, hlast⟩ := Record.memberAt?_offset_le hg
  rw [hg]
  by_contra hne
  have hne : f ≠ g := fun heq => hne (by rw [heq])
  -- the member found starts within the bytes of the other one
  have hstart : f.offset ≤ g.offset := hlast f mem (by omega)
  have hfg : r.Apart f g := hapart.forall mem hmem hne
  obtain ⟨m, hm, hpos⟩ := hextent g hmem
  have hf : r.extent f = .ok n := by
    rw [extent, whole]
    exact sizeOf
  -- the member that holds the offset is no bit field, so the two share no byte
  rcases hfg with ⟨hbits, -⟩ | hbytes
  · rw [whole] at hbits
    cases hbits
  · rcases hbytes n m hf hm with hbefore | hbehind <;> omega

/-! ### Structures within structures -/

/-- A record of the registry holds another one by value, as a member that is a structure. -/
def Holds (r : Registry) (outer inner : Record) : Prop :=
  outer ∈ r.records.toList ∧
    ∃ f ∈ outer.fields, r.kindOf f.type = .struct ∧ r.recordOf f.type = .ok inner

/-- **Acyclic layouts.** No record lies within itself. -/
def Acyclic (r : Registry) : Prop := ∀ record, ¬Relation.TransGen r.Holds record record

/-- No record occurs twice in a chain of records that hold each other, so the chain has at most as
many records as the registry. -/
theorem length_le_of_isChain (hacyclic : r.Acyclic) {chain : List Record}
    (hchain : chain.IsChain r.Holds) (hknown : ∀ record ∈ chain, record ∈ r.records.toList) :
    chain.length ≤ r.records.size := by
  have htrans : chain.IsChain (Relation.TransGen r.Holds) :=
    hchain.imp fun _ _ h => Relation.TransGen.single h
  -- a record that occurred again would lie within itself
  have hnodup : chain.Nodup := by
    refine (List.isChain_iff_pairwise.1 htrans).imp fun {outer inner} h heq => ?_
    rw [heq] at h
    exact hacyclic inner h
  exact (hnodup.subperm hknown).length_le

/-- Acyclic layouts by a rank that falls from each record to those within it. -/
theorem acyclic_of_rank (rank : Record → Nat)
    (h : ∀ outer inner, r.Holds outer inner → rank inner < rank outer) : r.Acyclic := by
  have hfall : ∀ outer inner, Relation.TransGen r.Holds outer inner → rank inner < rank outer := by
    intro outer inner hholds
    induction hholds with
    | single hstep => exact h _ _ hstep
    | tail _ hstep ih => exact Nat.lt_trans (h _ _ hstep) ih
  exact fun record hcycle => Nat.lt_irrefl _ (hfall record record hcycle)

/-! ### Searching for an owner -/

/-- A record does not end before an offset within it. -/
theorem endsBefore_eq_false {offset : Nat} (h : offset < record.size) :
    record.endsBefore offset = false := by
  rw [Record.endsBefore]
  simp [h]

/-- In a separated structure the member that holds an offset is the one that is found there. -/
theorem Separated.memberAt?_eq (hlayout : r.Separated t) (struct : r.kindOf t = .struct)
    (recordOf : r.recordOf t = .ok record) (mem : f ∈ record.fields)
    (whole : r.bitWidth? f = none) {n o : Nat} (sizeOf : r.sizeOf f.type = .ok n) (lt : o < n) :
    record.memberAt? (f.offset + o) = some f := by
  have hself : r.Part t 0 t := Part.self_of_isRecord (Or.inl struct)
  refine memberAt?_of_within (hlayout.apart hself struct recordOf) (fun g hg => ?_) mem whole
    sizeOf lt
  obtain ⟨m, hm, hpos, -⟩ := hlayout.within hself (Or.inl struct) recordOf hg
  exact ⟨m, hm, hpos⟩

/-- The search finds an owner if it may look into as many structures as lie around it, which hold
each other. -/
theorem Owns.exists_chain (h : r.Owns t offset w) (hlayout : r.Separated t) :
    ∃ record rest, r.recordOf t = .ok record ∧ (record :: rest).IsChain r.Holds ∧
      (∀ x ∈ record :: rest, x ∈ r.records.toList) ∧
      ∀ levels, rest.length < levels → r.fieldOwningWithin levels t offset = .ok w := by
  -- every structure on the way holds the offset that is looked for in it
  have hend {record : Record} (hrecord : r.recordOf t = .ok record) :
      record.endsBefore offset = false :=
    endsBefore_eq_false (h.lt_size hlayout hrecord)
  induction h with
  | @member t record f n o struct recordOf mem kind whole sizeOf lt =>
    refine ⟨record, [], recordOf, List.isChain_singleton _, ?_, fun levels hlevels => ?_⟩
    · intro x hx
      rw [List.mem_singleton.1 hx]
      exact mem_records_of_recordOf recordOf
    · obtain ⟨levels, rfl⟩ := Nat.exists_eq_succ_of_ne_zero (Nat.ne_of_gt hlevels)
      have hfound := hlayout.memberAt?_eq struct recordOf mem whole sizeOf lt
      rw [fieldOwningWithin, recordOf]
      change (if record.endsBefore (f.offset + o) = true then _ else _) = _
      rw [hend recordOf, hfound]
      change (if r.kindOf f.type = .struct then _ else _) = _
      rw [if_neg kind]
  | @nested t w record f o struct recordOf mem inner ih =>
    have hinner : r.IsRecord f.type := Or.inl inner.struct
    have hlayout' := hlayout.member (Or.inl struct) recordOf mem hinner.allArrays
    obtain ⟨record', rest, hrecord', hchain, hknown, hsearch⟩ :=
      ih hlayout' fun h => endsBefore_eq_false (inner.lt_size hlayout' h)
    have hholds : r.Holds record record' :=
      ⟨mem_records_of_recordOf recordOf, f, mem, inner.struct, hrecord'⟩
    refine ⟨record, record' :: rest, recordOf, List.isChain_cons_cons.2 ⟨hholds, hchain⟩, ?_,
      fun levels hlevels => ?_⟩
    · intro x hx
      rcases List.mem_cons.1 hx with rfl | hx
      · exact mem_records_of_recordOf recordOf
      · exact hknown x hx
    · obtain ⟨levels, rfl⟩ :=
        Nat.exists_eq_succ_of_ne_zero (Nat.ne_of_gt (Nat.lt_of_le_of_lt (Nat.zero_le _) hlevels))
      -- the nested structure is the member found, and holds the rest of the offset
      obtain ⟨n, hn, -, -⟩ := hlayout.exists_size (Or.inl struct) recordOf mem
        (bitWidth?_of_isRecord hinner)
      obtain ⟨record'', hrecord'', hsize⟩ := hinner.exists_record
      have hlt : o < n := by
        cases hsize.symm.trans hn
        exact inner.lt_size hlayout' hrecord''
      have hfound := hlayout.memberAt?_eq struct recordOf mem (bitWidth?_of_isRecord hinner) hn
        hlt
      rw [fieldOwningWithin, recordOf]
      change (if record.endsBefore (f.offset + o) = true then _ else _) = _
      rw [hend recordOf, hfound]
      change (if r.kindOf f.type = .struct then _ else _) = _
      rw [if_pos inner.struct, Nat.add_sub_cancel_left]
      exact hsearch levels (by rw [List.length_cons] at hlevels; omega)

/-- **The search finds the owner** of an offset, where members keep apart and no record lies within
itself. -/
theorem fieldOwning_of_owns (hlayout : r.Separated t) (hacyclic : r.Acyclic)
    (h : r.Owns t offset w) : r.fieldOwning t offset = .ok w := by
  obtain ⟨record, rest, -, hchain, hknown, hsearch⟩ := h.exists_chain hlayout
  have hlength : (record :: rest).length ≤ r.records.size :=
    length_le_of_isChain hacyclic hchain hknown
  -- the limit is one more than the number of records
  refine hsearch r.nestingLimit ?_
  rw [nestingLimit]
  rw [List.length_cons] at hlength
  omega

/-- An offset has one owner. -/
theorem Owns.unique {w' : CType} (h : r.Owns t offset w) (h' : r.Owns t offset w')
    (hlayout : r.Separated t) (hacyclic : r.Acyclic) : w = w' :=
  Except.ok.inj ((fieldOwning_of_owns hlayout hacyclic h).symm.trans
    (fieldOwning_of_owns hlayout hacyclic h'))

/-! ### Owners of pointers -/

/-- What an element leads to, the array leads to by one step more. -/
theorem Leads.exists_step {length place size i : Nat} {steps : List PathStep}
    (hsome : 0 < t.dimension) (isRecord : r.IsRecord t.baseType)
    (sizeOf : r.sizeOf t.baseType = .ok size) (lt : i < length / size)
    (inner : r.Leads t.baseType (offset + i * size) size steps u place) :
    ∃ step, r.Leads t offset length (step :: steps) u place := by
  -- a single level is read element by element, and more of them as one flat row
  by_cases hone : t.dimension = 1
  · exact ⟨_, .element hone isRecord sizeOf lt inner⟩
  · exact ⟨_, .flat (by omega) isRecord sizeOf lt inner⟩

/-- What holds a pointer by value is a record or an array. -/
theorem Leads.kind_cases {length place : Nat} {steps : List PathStep}
    (h : r.Leads t offset length steps u place) (byValue : Decoder.allArrays t = true) :
    r.IsRecord t ∨ r.kindOf t = .array := by
  have harray (hsome : 0 < t.dimension) : r.kindOf t = .array := by
    rw [CType.dimension] at hsome
    obtain ⟨level, inner, hlevels⟩ := List.exists_cons_of_length_pos hsome
    rw [Decoder.allArrays, hlevels, List.all_cons, Bool.and_eq_true] at byValue
    cases level with
    | pointer => cases byValue.1
    | array n => exact kindOf_eq_array_iff.2 ⟨n, inner, hlevels⟩
  cases h with
  | here pointer => exact absurd pointer (ne_objectPointer_of_allArrays byValue)
  | pointer struct _ _ _ => exact Or.inl (Or.inl struct)
  | member isRecord _ _ _ _ _ => exact Or.inl isRecord
  | element one _ _ _ _ => exact Or.inr (harray (by omega))
  | flat several _ _ _ _ => exact Or.inr (harray (by omega))

/-- A pointer lies within the bytes of the value that holds it. -/
theorem Leads.within {length place : Nat} {steps : List PathStep}
    (h : r.Leads t offset length steps u place) (hlayout : r.Separated t)
    (byValue : Decoder.allArrays t = true) (hsize : r.sizeOf t = .ok length) :
    ∃ o, place = offset + o ∧ o < length := by
  induction h with
  | here pointer => exact absurd pointer (ne_objectPointer_of_allArrays byValue)
  | pointer struct recordOf mem pointer =>
    obtain ⟨record, hrecord, hsize'⟩ := IsRecord.exists_record (Or.inl struct)
    cases recordOf.symm.trans hrecord
    cases hsize.symm.trans hsize'
    obtain ⟨n, -, hpos, hle⟩ :=
      hlayout.exists_size (Or.inl struct) recordOf mem (bitWidth?_of_objectPointer pointer)
    exact ⟨_, rfl, by omega⟩
  | member isRecord recordOf mem byValue' sizeOf inner ih =>
    obtain ⟨record, hrecord, hsize'⟩ := isRecord.exists_record
    cases recordOf.symm.trans hrecord
    cases hsize.symm.trans hsize'
    -- a pointer lies in no bit field
    have hwhole := (inner.kind_cases byValue').elim bitWidth?_of_isRecord bitWidth?_of_array
    obtain ⟨n, hn, -, hle⟩ := hlayout.exists_size isRecord recordOf mem hwhole
    cases sizeOf.symm.trans hn
    obtain ⟨o, rfl, hlt⟩ := ih (hlayout.member isRecord recordOf mem byValue') byValue' sizeOf
    exact ⟨_, Nat.add_assoc _ _ _, by omega⟩
  | element _ isRecord sizeOf lt _ ih | flat _ isRecord sizeOf lt _ ih =>
    have hbase := hlayout.congr (CType.baseType_baseType _)
    obtain ⟨o, rfl, hlt⟩ := ih hbase isRecord.allArrays sizeOf
    -- an element lies within the bytes of its array
    have helement := Decoder.element_within lt
    exact ⟨_, Nat.add_assoc _ _ _, by omega⟩

/-- A pointer within a structure owns its offset, unless it lies within an array of records or a
union that owns it. -/
theorem Leads.exists_owns {length place : Nat} {steps : List PathStep}
    (h : r.Leads t offset length steps u place) (hlayout : r.Separated t)
    (struct : r.kindOf t = .struct) :
    ∃ o w, place = offset + o ∧ r.Owns t o w ∧
      (w = u ∧ r.kindOf w = .objectPointer ∨
        r.kindOf w = .union ∨ r.kindOf w = .array ∧ Decoder.allArrays w = true) := by
  have hlevels : t.levels = [] := IsRecord.levels (Or.inl struct)
  induction h with
  | here pointer => exact absurd pointer (IsRecord.ne_objectPointer (Or.inl struct))
  | @pointer _ _ _ _ f struct recordOf mem pointer =>
    have hwhole := bitWidth?_of_objectPointer pointer
    obtain ⟨n, hn, hpos, -⟩ := hlayout.exists_size (Or.inl struct) recordOf mem hwhole
    exact ⟨f.offset + 0, f.type, rfl,
      .member struct recordOf mem (by simp [pointer]) hwhole hn hpos, Or.inl ⟨rfl, pointer⟩⟩
  | @member t u offset _ _ _ _ _ f isRecord recordOf mem byValue sizeOf inner ih =>
    have hlayout' := hlayout.member isRecord recordOf mem byValue
    by_cases hstruct : r.kindOf f.type = .struct
    · -- a structure within the structure
      obtain ⟨o, w, rfl, howns, hw⟩ := ih hlayout' hstruct (IsRecord.levels (Or.inl hstruct))
      exact ⟨f.offset + o, w, Nat.add_assoc _ _ _, .nested struct recordOf mem howns, hw⟩
    · -- a union or an array owns what lies within it
      have hkinds := inner.kind_cases byValue
      have hwhole := hkinds.elim bitWidth?_of_isRecord bitWidth?_of_array
      obtain ⟨o, rfl, hlt⟩ := inner.within hlayout' byValue sizeOf
      refine ⟨f.offset + o, f.type, Nat.add_assoc _ _ _,
        .member struct recordOf mem hstruct hwhole sizeOf hlt, Or.inr ?_⟩
      rcases hkinds with (hkind | hkind) | hkind
      · exact absurd hkind hstruct
      · exact Or.inl hkind
      · exact Or.inr ⟨hkind, byValue⟩
  | element hsome _ _ _ _ _ | flat hsome _ _ _ _ _ =>
    -- a structure has no levels
    rw [CType.dimension, hlevels] at hsome
    cases hsome

/-- A pointer in a buffer of structures lies within one of them. -/
theorem Leads.exists_structure {s : CType} {length place : Nat} {steps : List PathStep}
    (h : r.Leads s 0 length steps u place) (hsteps : steps ≠ []) (hbase : s.baseType = t)
    (struct : r.kindOf t = .struct) :
    ∃ size i length' steps', r.sizeOf t = .ok size ∧
      r.Leads t (i * size) length' steps' u place := by
  by_cases hrecord : r.IsRecord s
  · -- a structure is a buffer of one structure
    obtain ⟨record, -, hsize⟩ := hrecord.exists_record
    rw [CType.baseType_of_levels_nil hrecord.levels] at hbase
    subst hbase
    exact ⟨record.size, 0, length, steps, hsize, by rwa [Nat.zero_mul]⟩
  · cases h with
    | here _ => exact absurd rfl hsteps
    | pointer struct _ _ _ => exact absurd (Or.inl struct) hrecord
    | member isRecord _ _ _ _ _ => exact absurd isRecord hrecord
    | element _ _ sizeOf _ inner | flat _ _ sizeOf _ inner =>
      rw [hbase] at sizeOf inner
      rw [Nat.zero_add] at inner
      exact ⟨_, _, _, _, sizeOf, inner⟩

end Registry

namespace Decoder

variable {d : Decoder} {slot : PointerSlot}

/-! ### Owners of decoded pointers -/

/-- What is in a joined list is in one of its parts, and all of these are there. -/
theorem exists_part_of_mem_joined {parts : List (Option (List PointerSlot))}
    {found : List PointerSlot} (h : joined parts = some found) (hslot : slot ∈ found) :
    ∃ own, some own ∈ parts ∧ slot ∈ own := by
  induction parts generalizing found with
  | nil =>
    cases h
    cases hslot
  | cons part rest ih =>
    obtain ⟨first, hfirst, h⟩ := Option.bind_eq_some_iff.1 h
    obtain ⟨others, hothers, h⟩ := Option.bind_eq_some_iff.1 h
    cases h
    -- in the first part, or in the others
    rcases List.mem_append.1 hslot with hslot | hslot
    · exact ⟨first, hfirst ▸ List.mem_cons_self, hslot⟩
    · obtain ⟨own, hown, hslot⟩ := ih hothers hslot
      exact ⟨own, List.mem_cons_of_mem _ hown, hslot⟩

/-- A slot of elements is a slot of one of them, which is a record. -/
theorem exists_element_of_slot {nested : CType → Nat → String → Option (List PointerSlot)}
    {t : CType} {offset length : Nat} {access : String} {found : List PointerSlot}
    (h : d.elementSlots nested t offset length access = some found) (hslot : slot ∈ found) :
    d.registry.IsRecord t ∧ ∃ size i path own, d.registry.sizeOf t = .ok size ∧
      i < length / size ∧ nested t (offset + i * size) path = some own ∧ slot ∈ own := by
  -- the elements are the parts, whichever kind of record they are
  have hcase : ∀ size, d.elementSize t = .ok size →
      joined ((List.range (length / size)).map fun i =>
        nested t (offset + i * size) s!"{access}[{i}]") = some found →
      ∃ size i path own, d.registry.sizeOf t = .ok size ∧ i < length / size ∧
        nested t (offset + i * size) path = some own ∧ slot ∈ own := by
    intro size hsize hjoined
    obtain ⟨own, hown, hslot⟩ := exists_part_of_mem_joined hjoined hslot
    obtain ⟨i, hi, hown⟩ := List.mem_map.1 hown
    rw [elementSize_eq_sizeOf] at hsize
    exact ⟨size, i, _, own, hsize, List.mem_range.1 hi, hown, hslot⟩
  unfold elementSlots at h
  split at h
  · next size hkind hsize => exact ⟨Or.inl hkind, hcase size hsize h⟩
  · next size hkind hsize => exact ⟨Or.inr hkind, hcase size hsize h⟩
  · cases h
    cases hslot

/-- A slot of a member lies in a record or in an array of records, or is the member itself. -/
theorem memberSlots_cases {nested : CType → Nat → String → Option (List PointerSlot)}
    {kind : Record.Kind} {base : Nat} {access : String} {f : Field} {found : List PointerSlot}
    (h : d.memberSlots nested kind base access f = some found) (hslot : slot ∈ found) :
    (d.registry.IsRecord f.type ∧ ∃ path own,
      nested f.type (base + f.offset) path = some own ∧ slot ∈ own) ∨
    (d.registry.kindOf f.type = .array ∧ allArrays f.type = true ∧
      d.registry.IsRecord f.type.baseType ∧ ∃ n size i path own, d.registry.sizeOf f.type = .ok n ∧
        d.registry.sizeOf f.type.baseType = .ok size ∧ i < n / size ∧
        nested f.type.baseType (base + f.offset + i * size) path = some own ∧ slot ∈ own) ∨
    (kind = .struct ∧ d.registry.kindOf f.type = .objectPointer ∧
      slot.offset = base + f.offset ∧ slot.type = f.type) := by
  unfold memberSlots at h
  split at h
  · next hkind => exact Or.inl ⟨Or.inl hkind, _, found, h, hslot⟩
  · next hkind => exact Or.inl ⟨Or.inr hkind, _, found, h, hslot⟩
  · next hkind =>
    split at h
    · next n harrays hn =>
      obtain ⟨hrecord, size, i, path, own, hsize, hi, hown, hslot⟩ := exists_element_of_slot h hslot
      exact Or.inr (Or.inl ⟨hkind, harrays, hrecord, n, size, i, path, own, hn, hsize, hi, hown,
        hslot⟩)
    · cases h
      cases hslot
  · next hkind =>
    split at h
    · cases h
      rw [List.mem_singleton.1 hslot]
      exact Or.inr (Or.inr ⟨rfl, hkind, rfl, rfl⟩)
    · cases h
      cases hslot
  · cases h
    cases hslot

/-- A slot of a record is a slot of one of its members. -/
theorem exists_member_of_slot {levels : Nat} {t : CType} {base : Nat} {access : String}
    {found : List PointerSlot} (h : d.recordSlots (levels + 1) t base access = some found)
    (hslot : slot ∈ found) :
    ∃ record f own, d.registry.recordOf t = .ok record ∧ f ∈ record.fields ∧
      d.memberSlots (d.recordSlots levels) record.kind base access f = some own ∧ slot ∈ own := by
  unfold recordSlots at h
  split at h
  · next record hrecord =>
    obtain ⟨own, hown, hslot⟩ := exists_part_of_mem_joined h hslot
    obtain ⟨f, hf, hown⟩ := List.mem_map.1 hown
    exact ⟨record, f, own, hrecord, hf, hown, hslot⟩
  · cases h

/-- A path leads to each slot of a record. -/
theorem exists_leads_of_recordSlot {levels : Nat} {t : CType} {base : Nat} {access : String}
    {found : List PointerSlot} (isRecord : d.registry.IsRecord t)
    (h : d.recordSlots levels t base access = some found) (hslot : slot ∈ found) (length : Nat) :
    ∃ steps, d.registry.Leads t base length steps slot.type slot.offset := by
  induction levels generalizing t base access found length with
  | zero => cases h
  | succ levels ih =>
    obtain ⟨record, f, own, hrecord, hf, hown, hslot⟩ := exists_member_of_slot h hslot
    rcases memberSlots_cases hown hslot with
      ⟨hinner, path, own, hown, hslot⟩ |
      ⟨hkind, harrays, hinner, n, size, i, path, own, hn, hsize, hi, hown, hslot⟩ |
      ⟨hstruct, hkind, hoffset, htype⟩
    · -- within a record that is a member
      obtain ⟨inner, -, hsize⟩ := hinner.exists_record
      obtain ⟨steps, hleads⟩ := ih hinner hown hslot inner.size
      exact ⟨_, .member isRecord hrecord hf hinner.allArrays hsize hleads⟩
    · -- within an element of a member that is an array
      obtain ⟨steps, hleads⟩ := ih hinner hown hslot size
      obtain ⟨step, helement⟩ := Registry.Leads.exists_step
        (Registry.dimension_pos_of_array hkind) hinner hsize hi hleads
      exact ⟨_, .member isRecord hrecord hf harrays hn helement⟩
    · -- a pointer
      obtain ⟨record', hrecord', hkinds⟩ := Registry.recordOf_of_kindOf isRecord
      cases hrecord.symm.trans hrecord'
      rw [hoffset, htype]
      exact ⟨_, .pointer (hkinds.1 hstruct) hrecord hf hkind⟩

/-- A path leads to each slot of a type. Only a pointer that is an object of its own is a slot
without a step. -/
theorem exists_leads_of_slot {t : CType} {usage : Usage} {length : Nat} {name : String}
    {found : List PointerSlot} (h : d.slots t usage length name = some found)
    (hslot : slot ∈ found) :
    ∃ steps, (steps = [] → d.registry.kindOf t = .objectPointer ∧ usage = .lazy) ∧
      d.registry.Leads t 0 length steps slot.type slot.offset := by
  have hrecord (isRecord : d.registry.IsRecord t)
      (h : d.recordSlots d.config.maxDepth t 0 name = some found) :
      ∃ steps, (steps = [] → d.registry.kindOf t = .objectPointer ∧ usage = .lazy) ∧
        d.registry.Leads t 0 length steps slot.type slot.offset := by
    obtain ⟨steps, hleads⟩ := exists_leads_of_recordSlot isRecord h hslot length
    exact ⟨steps, fun hnil => absurd hnil (hleads.ne_nil isRecord.ne_objectPointer), hleads⟩
  have hsequence (hsome : 0 < t.dimension) (h : d.sequenceSlots t usage length name = some found) :
      ∃ steps, (steps = [] → d.registry.kindOf t = .objectPointer ∧ usage = .lazy) ∧
        d.registry.Leads t 0 length steps slot.type slot.offset := by
    unfold sequenceSlots at h
    split at h
    · next counted hcounted =>
      -- the counted bytes are within the buffer
      have hle : counted ≤ length := by
        split at hcounted
        · cases hcounted
          exact Nat.le_refl _
        · exact countedLength_le hcounted
      obtain ⟨isRecord, size, i, path, own, hsize, hi, hown, hslot⟩ :=
        exists_element_of_slot h hslot
      obtain ⟨steps, hleads⟩ := exists_leads_of_recordSlot isRecord hown hslot size
      obtain ⟨step, helement⟩ := Registry.Leads.exists_step hsome isRecord hsize hi hleads
      exact ⟨_, fun hnil => absurd hnil (List.cons_ne_nil _ _), helement.mono hle⟩
    · cases h
      cases hslot
  unfold slots at h
  split at h
  · next hkind => exact hrecord (Or.inl hkind) h
  · next hkind => exact hrecord (Or.inr hkind) h
  · next hkind => exact hsequence (Registry.dimension_pos_of_array hkind) h
  · next hkind =>
    split at h
    · next hlazy =>
      cases h
      rw [List.mem_singleton.1 hslot]
      exact ⟨[], fun _ => ⟨hkind, hlazy⟩, .here hkind⟩
    · split at h
      · cases h
        cases hslot
      · exact hsequence (Registry.dimension_pos_of_objectPointer hkind) h
  · cases h
    cases hslot

end Decoder

namespace LazySearch

variable {d : Decoder} {r : Registry} {t u w : CType}

/-! ### Types behind pointers -/

/-- An array of records leads nowhere, nor does a union. -/
theorem targetOf?_eq_none
    (h : r.kindOf w = .union ∨ r.kindOf w = .array ∧ Decoder.allArrays w = true) :
    targetOf? r w = none := by
  unfold targetOf?
  rcases h with hkind | ⟨hkind, harrays⟩
  · rw [hkind]
  · have hlevels : w.levels.takeWhile (· != .pointer) = w.levels :=
      List.takeWhile_eq_self_iff.2 (List.all_eq_true.1 harrays)
    -- what is left when all levels are taken off has none
    have helement : (w.under w.levels.length).isObjectPointer = false := by
      rw [CType.isObjectPointer, CType.levels_under, List.drop_length]
      rfl
    simp only [hkind, hlevels, helement]
    rfl

/-- The search attributes an offset by the owner of the offset within one structure. -/
theorem pointeeAt_of_owns (hlayout : r.Separated t) (hacyclic : r.Acyclic) {size offset : Nat}
    (hsize : r.sizeOf t = .ok size) (h : r.Owns t (offset % size) w) :
    pointeeAt r t offset =
      match targetOf? r w with
      | some target => .ok target
      | none =>
        .error (.malformed s!"offset {offset} in {t.displayName} does not hold a pointer") := by
  -- a structure that owns a byte is not empty
  have hpos : 0 < size := by
    obtain ⟨record, hrecord, hsize'⟩ := Registry.IsRecord.exists_record (Or.inl h.struct)
    cases hsize.symm.trans hsize'
    exact Nat.lt_of_le_of_lt (Nat.zero_le _) (h.lt_size hlayout hrecord)
  have howner := Registry.fieldOwning_of_owns hlayout hacyclic h
  unfold pointeeAt
  rw [h.struct, hsize]
  change ((r.fieldOwning t (if 0 < size then offset % size else offset)).mapError _ >>= _) = _
  rw [if_pos hpos, howner]
  rfl

/-- **Attribution** of a pointer of type `u` at an offset of a buffer of structures of type `t`.
Within its structure the pointer is a member, or one of a structure within it, and so on, and the
offset is attributed to the type behind it. Or it lies within an array of records or a union, and
the offset is refused. -/
def Attributed (r : Registry) (t u : CType) (offset : Nat) : Prop :=
  ∃ size, r.sizeOf t = .ok size ∧
    (r.Owns t (offset % size) u ∧ pointeeAt r t offset = .ok u.pointee ∨
      ∃ w, r.Owns t (offset % size) w ∧
        (r.kindOf w = .union ∨ r.kindOf w = .array ∧ Decoder.allArrays w = true) ∧
        pointeeAt r t offset = .error (.malformed
          s!"offset {offset} in {t.displayName} does not hold a pointer"))

/-- **A pointer to which a path leads** is attributed by the owner of its offset. -/
theorem attributed_of_leads (hlayout : r.Separated t) (hacyclic : r.Acyclic)
    (struct : r.kindOf t = .struct) {s : CType} (hbase : s.baseType = t) {length place : Nat}
    {steps : List PathStep} (h : r.Leads s 0 length steps u place) (hsteps : steps ≠ []) :
    Attributed r t u place := by
  obtain ⟨size, i, length', steps', hsize, hleads⟩ := h.exists_structure hsteps hbase struct
  obtain ⟨o, w, hoffset, howns, hw⟩ := hleads.exists_owns hlayout struct
  obtain ⟨record, hrecord, hsize'⟩ := Registry.IsRecord.exists_record (Or.inl struct)
  cases hsize.symm.trans hsize'
  -- the offset within the structure is the remainder by its size
  have hrebased : place % record.size = o := by
    rw [hoffset, Nat.mul_add_mod', Nat.mod_eq_of_lt (howns.lt_size hlayout hrecord)]
  rw [← hrebased] at howns
  have hpointee := pointeeAt_of_owns hlayout hacyclic hsize howns
  refine ⟨record.size, hsize, ?_⟩
  rcases hw with ⟨rfl, hpointer⟩ | hrecords
  · refine Or.inl ⟨howns, hpointee.trans ?_⟩
    rw [targetOf?, hpointer]
  · refine Or.inr ⟨w, howns, hrecords, hpointee.trans ?_⟩
    rw [targetOf?_eq_none hrecords]

/-- **Offsets agree with layouts.** Let the members of the structures in a buffer keep apart, and no
record lie within itself. Whether the buffer can be decoded or not, each reference that is reported
is that of a pointer whose offset is attributed. So are the slots of the buffer, whatever address
they store. -/
theorem pointers_attributed (struct : d.registry.kindOf t = .struct)
    (hlayout : d.registry.Separated t) (hacyclic : d.registry.Acyclic) {s : CType}
    (hbase : s.baseType = t) {usage : Usage}
    (hvalues : d.registry.kindOf s = .objectPointer → usage ≠ .lazy) (bytes : Bytes)
    (name : String) :
    (∀ ref ∈ (d.decode bytes s usage name).references, ∃ steps u place,
      d.registry.Leads s 0 bytes.length steps u place ∧
        d.referenceAt bytes ⟨ref.path, place, u⟩ = some ref ∧ Attributed d.registry t u place) ∧
      ∀ found, d.slots s usage bytes.length name = some found →
        ∀ slot ∈ found, Attributed d.registry t slot.type slot.offset := by
  constructor
  · intro ref href
    obtain ⟨steps, u, place, ⟨hnil, hleads⟩, hreference, -⟩ :=
      Decoder.addressed_decode bytes s usage name ref href
    have hsteps : steps ≠ [] := fun h => hvalues (hnil h).1 (hnil h).2
    exact ⟨steps, u, place, hleads, hreference,
      attributed_of_leads hlayout hacyclic struct hbase hleads hsteps⟩
  · intro found hfound slot hslot
    obtain ⟨steps, hnil, hleads⟩ := Decoder.exists_leads_of_slot hfound hslot
    have hsteps : steps ≠ [] := fun h => hvalues (hnil h).1 (hnil h).2
    exact attributed_of_leads hlayout hacyclic struct hbase hleads hsteps

/-- A row of nodes: the first one, and two more in an array. -/
def rowRecord : Record where
  name := "row"
  kind := .struct
  size := 48
  fields := [⟨"first", .simple "node", 0, none, 0⟩,
    ⟨"others", (CType.simple "node").array 2, 16, none, 0⟩]

/-- A decoder that knows rows of nodes, and a node by its address. -/
def rowDecoder : Decoder where
  registry := .ofLists [Decoder.nodeRecord, rowRecord] [] 8
  table := ⟨[(0x20, "head")]⟩
  method := "sum"

/-- What a row stores by value, with ranks that fall towards the inside. -/
def rowParts : List (CType × Nat) :=
  [(.simple "row", 2), (.simple "node", 1), (.simple "uint64_t", 0)]

/-- The records by value in a row are the row itself and its nodes. -/
theorem row_part {depth : Nat} {u : CType}
    (hpart : rowDecoder.registry.Part (.simple "row") depth u)
    (hrecord : rowDecoder.registry.IsRecord u) : u = .simple "row" ∨ u = .simple "node" := by
  have hbase : ((CType.simple "row").baseType, 2) ∈ rowParts := List.mem_cons_self
  have hfits : rowParts.all (rowDecoder.registry.fits rowParts) = true := rfl
  obtain ⟨n, -, hu⟩ := hpart.mem_of_fits hbase hfits
  rcases List.mem_cons.1 hu with heq | hu
  · exact Or.inl (Prod.mk.inj heq).1
  rcases List.mem_cons.1 hu with heq | hu
  · exact Or.inr (Prod.mk.inj heq).1
  -- a number is no record
  rw [(Prod.mk.inj (List.mem_singleton.1 hu)).1] at hrecord
  rcases hrecord with hkind | hkind <;> cases hkind

/-- The members of rows and of nodes keep apart. -/
theorem separated_row : rowDecoder.registry.Separated (.simple "row") where
  within := by
    intro depth u record f hpart isRecord hrecord hf
    have hrow : rowDecoder.registry.recordOf (.simple "row") = .ok rowRecord := rfl
    have hnode : rowDecoder.registry.recordOf (.simple "node") = .ok Decoder.nodeRecord := rfl
    rcases row_part hpart isRecord with rfl | rfl
    · cases hrow.symm.trans hrecord
      rcases List.mem_cons.1 hf with rfl | hf
      · exact ⟨16, rfl, by decide, by decide⟩
      · rw [List.mem_singleton.1 hf]
        exact ⟨32, rfl, by decide, by decide⟩
    · cases hnode.symm.trans hrecord
      rcases List.mem_cons.1 hf with rfl | hf
      · exact ⟨8, rfl, by decide, by decide⟩
      · rw [List.mem_singleton.1 hf]
        exact ⟨8, rfl, by decide, by decide⟩
  apart := by
    intro depth u record hpart struct hrecord
    have hrow : rowDecoder.registry.recordOf (.simple "row") = .ok rowRecord := rfl
    have hnode : rowDecoder.registry.recordOf (.simple "node") = .ok Decoder.nodeRecord := rfl
    rcases row_part hpart (Or.inl struct) with rfl | rfl
    · cases hrow.symm.trans hrecord
      refine List.pairwise_pair.2 (Or.inr fun m n hm _ => Or.inl ?_)
      cases hm
      decide
    · cases hnode.symm.trans hrecord
      refine List.pairwise_pair.2 (Or.inr fun m n hm _ => Or.inl ?_)
      cases hm
      decide

/-- A row holds nodes, and a node holds no record. -/
theorem acyclic_row : rowDecoder.registry.Acyclic := by
  refine Registry.acyclic_of_rank Record.size ?_
  rintro outer inner ⟨houter, f, hf, hkind, hinner⟩
  have hrecords : rowDecoder.registry.records.toList = [Decoder.nodeRecord, rowRecord] := rfl
  rw [hrecords] at houter
  rcases List.mem_cons.1 houter with rfl | houter
  · -- a node holds a number and a pointer
    rcases List.mem_cons.1 hf with rfl | hf
    · cases hkind
    · rw [List.mem_singleton.1 hf] at hkind
      cases hkind
  · obtain rfl := List.mem_singleton.1 houter
    rcases List.mem_cons.1 hf with rfl | hf
    · have hnode : rowDecoder.registry.recordOf (.simple "node") = .ok Decoder.nodeRecord := rfl
      cases hnode.symm.trans hinner
      decide
    · rw [List.mem_singleton.1 hf] at hkind
      cases hkind

/-- A buffer of two rows. The last node of the first row and the first node of the second row lead
to the known node. -/
def rowBytes : Bytes :=
  List.replicate 40 0 ++ [0x20, 0, 0, 0, 0, 0, 0, 0] ++ List.replicate 8 0 ++
    [0x20, 0, 0, 0, 0, 0, 0, 0] ++ List.replicate 32 0

/-- The reference of the last node of the first row. -/
def lastReference : Reference := ⟨"rows[0].others[1].next", "head", "(node *)"⟩

/-- The reference of the first node of the second row. -/
def firstReference : Reference := ⟨"rows[1].first.next", "head", "(node *)"⟩

/-- Two of the pointers in the buffer store the known address. -/
theorem references_rows :
    (rowDecoder.decode rowBytes ((CType.simple "row").array 2) .parameter "rows").references =
      [lastReference, firstReference] := rfl

/-- The pointers in a buffer of two rows, by the first node and the others of each. -/
def rowSlots : List PointerSlot :=
  [⟨"rows[0].first.next", 8, (CType.simple "node").pointer⟩,
    ⟨"rows[0].others[0].next", 24, (CType.simple "node").pointer⟩,
    ⟨"rows[0].others[1].next", 40, (CType.simple "node").pointer⟩,
    ⟨"rows[1].first.next", 56, (CType.simple "node").pointer⟩,
    ⟨"rows[1].others[0].next", 72, (CType.simple "node").pointer⟩,
    ⟨"rows[1].others[1].next", 88, (CType.simple "node").pointer⟩]

/-- These are all of the slots, whatever they store. -/
theorem slots_rows :
    rowDecoder.slots ((CType.simple "row").array 2) .parameter rowBytes.length "rows" =
      some rowSlots := rfl

/-- The pointer of the first node owns its offset in the row. -/
theorem owns_first : rowDecoder.registry.Owns (.simple "row") 8 (CType.simple "node").pointer := by
  have hnode : rowDecoder.registry.Owns (.simple "node") (8 + 0) (CType.simple "node").pointer :=
    .member (f := ⟨"next", (CType.simple "node").pointer, 8, none, 0⟩) (n := 8)
      rfl rfl (by decide) (by decide) rfl rfl (by decide)
  exact .nested (f := ⟨"first", .simple "node", 0, none, 0⟩) (o := 8) rfl rfl (by decide) hnode

/-- The first node of the second row is attributed to a node, at the same place as that of the
first. -/
theorem rows_pointers_attributed :
    (∃ steps u place,
      rowDecoder.registry.Leads ((CType.simple "row").array 2) 0 rowBytes.length steps u place ∧
        rowDecoder.referenceAt rowBytes ⟨"rows[1].first.next", place, u⟩ = some firstReference ∧
        Attributed rowDecoder.registry (.simple "row") u place) ∧
      ⟨"rows[1].first.next", 56, (CType.simple "node").pointer⟩ ∈ rowSlots ∧
      pointeeAt rowDecoder.registry (.simple "row") 56 = .ok (.simple "node") := by
  have hslot : ⟨"rows[1].first.next", 56, (CType.simple "node").pointer⟩ ∈ rowSlots := by decide
  have hvalues : rowDecoder.registry.kindOf ((CType.simple "row").array 2) = .objectPointer →
      Usage.parameter ≠ .lazy := fun _ => by decide
  obtain ⟨hreferences, hslots⟩ :=
    pointers_attributed rfl separated_row acyclic_row rfl hvalues rowBytes "rows"
  refine ⟨hreferences firstReference ?_, hslot, ?_⟩
  · rw [references_rows]
    exact List.mem_cons_of_mem _ List.mem_cons_self
  · obtain ⟨size, hsize, ⟨-, hpointee⟩ | ⟨w, howns, hrecords, -⟩⟩ :=
      hslots rowSlots slots_rows _ hslot
    · exact hpointee
    · -- the owner of the offset is the pointer, and neither a union nor an array
      have hrow : rowDecoder.registry.sizeOf (.simple "row") = .ok 48 := rfl
      cases hrow.symm.trans hsize
      cases howns.unique owns_first separated_row acyclic_row
      rcases hrecords with hkind | ⟨hkind, -⟩ <;> cases hkind

/-- **Elements of a member are not told apart.** A pointer of a node in an array within a row is
decoded and reported, but its offset is refused. -/
theorem exists_refused_offset :
    rowDecoder.registry.kindOf (.simple "row") = .struct ∧
      rowDecoder.registry.Separated (.simple "row") ∧ rowDecoder.registry.Acyclic ∧
      lastReference ∈
        (rowDecoder.decode rowBytes ((CType.simple "row").array 2) .parameter "rows").references ∧
      ∃ slot ∈ rowSlots, rowDecoder.referenceAt rowBytes slot = some lastReference ∧
        rowDecoder.slots ((CType.simple "row").array 2) .parameter rowBytes.length "rows" =
          some rowSlots ∧
        pointeeAt rowDecoder.registry (.simple "row") slot.offset ≠ .ok slot.type.pointee := by
  have hreported : lastReference ∈
      (rowDecoder.decode rowBytes ((CType.simple "row").array 2) .parameter "rows").references := by
    rw [references_rows]
    exact List.mem_cons_self
  refine ⟨rfl, separated_row, acyclic_row, hreported,
    ⟨"rows[0].others[1].next", 40, (CType.simple "node").pointer⟩, by decide, rfl, slots_rows, ?_⟩
  have hsize : rowDecoder.registry.sizeOf (.simple "row") = .ok 48 := rfl
  -- the array owns the offset, 24 bytes behind its start
  have howns : rowDecoder.registry.Owns (.simple "row") (40 % 48) ((CType.simple "node").array 2) :=
    .member (f := ⟨"others", (CType.simple "node").array 2, 16, none, 0⟩) (n := 32) (o := 24)
      rfl rfl (by decide) (by decide) rfl rfl (by decide)
  rw [pointeeAt_of_owns separated_row acyclic_row hsize howns]
  intro heq
  cases heq

end LazySearch

end SymVec

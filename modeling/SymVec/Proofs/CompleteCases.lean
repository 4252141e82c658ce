import SymVec.Proofs.Readings
import SymVec.Proofs.Selection

/-!
# Complete cases

What a case consists of is told by the signature of the function and by the names of the recorded
objects. Nothing of it is lost and nothing is made up: each list of the case has one value for each
variable or object that it is about, in their order, and each value is what its object decodes to.

Some objects may be missing, and then their values are. Others are required: those of the receiver,
of parameters that are no function pointers, of global variables before and after the call, and of
the returned value. A vector that lacks one of them adds no case.

* `TestCase.isValueOf_of_required`, `TestCase.isValueOf_of_named?` — the decoded value of an object;
* `Method.stubType?_eq_some_iff` — the objects that record the values of stubs;
* `TestCase.Assembly.Complete` — a case with all that its vector records for it;
* `TestCase.Assembly.complete_of_ownCase` — a vector's own case is complete;
* `TestCase.Assembly.cases_complete` — the cases of a list of vectors.
-/

namespace SymVec

/-- The declaration of a variable that holds the value. -/
def NamedValue.declared (x : NamedValue) : Parameter := ⟨x.name, x.type, x.alignment⟩

/-- Whether an object of that name is recorded. -/
def TestVector.records (v : TestVector) (name : String) : Bool := (v.find? name).isSome

theorem TestVector.records_iff {v : TestVector} {name : String} :
    v.records name = true ↔ ∃ o ∈ v.objects, o.name = name :=
  TestVector.find?_isSome_iff

/-- Where each element that is kept has a result and no other has one, the results are those of the
kept elements. -/
theorem forall₂_filterMap {α β : Type} {keep : α → Bool} {R : α → β → Prop} {xs : List α}
    {ys : List (Option β)}
    (h : List.Forall₂ (fun x y => (keep x = true ∧ ∃ z, y = some z ∧ R x z) ∨
      (keep x = false ∧ y = none)) xs ys) :
    List.Forall₂ R (xs.filter keep) (ys.filterMap id) := by
  induction h with
  | nil => exact .nil
  | cons hfirst _ ih =>
    rcases hfirst with ⟨hkeep, z, rfl, hz⟩ | ⟨hdrop, rfl⟩
    · rw [List.filter_cons_of_pos hkeep]
      exact .cons hz ih
    · rw [List.filter_cons_of_neg (by simp [hdrop])]
      exact ih

/-- The type as which the object of that name is decoded if it records the values of a stub. The
values of function pointer parameters are no stubs. -/
def Method.stubType? (m : Method) (name : String) : Option CType :=
  (Text.before? TestCase.symbolicEnding name).bind fun stub =>
    if m.parameters.any fun p => p.name = stub && p.isFunctionPointer then none
    else (m.stubs.find? stub).map fun entry => entry.2.checkedType

/-- **Objects of stubs** are named for a known stub, and not for a function pointer parameter. -/
theorem Method.stubType?_eq_some_iff {m : Method} {name : String} {t : CType} :
    m.stubType? name = some t ↔
      ∃ stub returned, name = stub ++ TestCase.symbolicEnding ∧
        m.stubs.find? stub = some (stub, returned) ∧
        (∀ p ∈ m.parameters, p.name = stub → p.isFunctionPointer = false) ∧
        t = returned.checkedType := by
  -- the test of the parameters as a statement about each of them
  have hplain : ∀ stub, (m.parameters.any fun p => p.name = stub && p.isFunctionPointer) = false ↔
      ∀ p ∈ m.parameters, p.name = stub → p.isFunctionPointer = false := by
    intro stub
    simp
  rw [stubType?, Option.bind_eq_some_iff]
  constructor
  · rintro ⟨stub, hname, h⟩
    split at h
    · cases h
    · next hparameters =>
      obtain ⟨⟨key, returned⟩, hfind, rfl⟩ := Option.map_eq_some_iff.1 h
      obtain rfl : key = stub := Catalog.key_of_find? hfind
      exact ⟨key, returned, Text.before?_eq_some_iff.1 hname, hfind,
        (hplain key).1 (Bool.eq_false_iff.2 hparameters), rfl⟩
  · rintro ⟨stub, returned, hname, hfind, hparameters, rfl⟩
    refine ⟨stub, Text.before?_eq_some_iff.2 hname, ?_⟩
    rw [if_neg (Bool.eq_false_iff.1 ((hplain stub).2 hparameters)), hfind]
    rfl

namespace TestCase

open Traced

variable {d : Decoder} {v : TestVector}

/-! ### Values -/

/-- **Recorded value** of a variable: what the first object of its name decodes to as its type. -/
structure IsValueOf (d : Decoder) (v : TestVector) (p : Parameter) (x : NamedValue) : Prop where
  declared : x.declared = p
  decoded : ∃ bytes, v.contents? p.name = some bytes ∧
    (d.decode bytes p.type .parameter p.name).outcome = .ok x.view

/-- An object that may be missing has its value if it is recorded, and no value otherwise. -/
theorem isValueOf_of_named? {name : String} {t : CType} {alignment : Option Nat}
    {found : Option NamedValue}
    (h : (named? d v name t alignment .parameter).outcome = .ok found) :
    (v.records name = true ∧ ∃ x, found = some x ∧ IsValueOf d v ⟨name, t, alignment⟩ x) ∨
      (v.records name = false ∧ found = none) := by
  have hrecords : v.records name = (v.contents? name).isSome := by
    rw [TestVector.records, TestVector.contents?, Option.isSome_map]
  rw [hrecords]
  unfold named? at h
  cases hbytes : v.contents? name with
  | none =>
    rw [hbytes] at h
    exact .inr ⟨rfl, (Except.ok.inj h).symm⟩
  | some bytes =>
    rw [hbytes] at h
    obtain ⟨view, hview, h⟩ := outcome_bind_eq_ok_iff.1 h
    exact .inl ⟨rfl, _, (Except.ok.inj h).symm, rfl, bytes, hbytes, hview⟩

/-- A required object is recorded. -/
theorem records_of_required {name : String} {t : CType} {alignment : Option Nat} {usage : Usage}
    {x : NamedValue} (h : (required d v name t alignment usage).outcome = .ok x) :
    v.records name = true := by
  obtain ⟨found, hfound, h⟩ := outcome_bind_eq_ok_iff.1 h
  unfold named? TestVector.contents? at hfound
  rw [TestVector.records]
  cases hfind : v.find? name with
  | none =>
    rw [hfind] at hfound
    cases hfound
    cases h
  | some i => rfl

/-- A required object has its value. -/
theorem isValueOf_of_required {name : String} {t : CType} {alignment : Option Nat} {x : NamedValue}
    (h : (required d v name t alignment .parameter).outcome = .ok x) :
    IsValueOf d v ⟨name, t, alignment⟩ x := by
  obtain ⟨found, hfound, h⟩ := outcome_bind_eq_ok_iff.1 h
  -- an object without a value would be an error
  rcases isValueOf_of_named? hfound with ⟨-, y, rfl, hy⟩ | ⟨-, rfl⟩
  · cases h
    exact hy
  · cases h

/-! ### Variables -/

/-- The value of a parameter before the call. A function pointer has no object. -/
def IsParameterValue (d : Decoder) (v : TestVector) (p : Parameter) (x : NamedValue) : Prop :=
  if p.isFunctionPointer then
    x.declared = p ∧ (d.decode [] p.type.baseType .parameter p.name).outcome = .ok x.view
  else IsValueOf d v { p with type := p.objectType } x

/-- Whether the vector records what the parameter leads to after the call, if it can change. -/
def recordsAfter (v : TestVector) (p : Parameter) : Bool :=
  p.isChangeable && !p.isFunctionPointer && v.records (afterName p.name)

/-- The value of a parameter after the call has the type of the one before. -/
def IsValueAfter (d : Decoder) (v : TestVector) (q : Parameter × NamedValue) (y : NamedValue) :
    Prop :=
  IsValueOf d v ⟨afterName q.1.name, q.2.type, q.2.alignment⟩ y

/-- The values of a parameter, and the object that it requires. Only a function pointer requires
none. -/
theorem values_of_parameterValues {p : Parameter} {before : NamedValue}
    {after : Option NamedValue}
    (h : (parameterValues d v p).outcome = .ok (before, after)) :
    IsParameterValue d v p before ∧
      (p.isFunctionPointer = false → v.records p.name = true) ∧
      ((recordsAfter v p = true ∧ ∃ y, after = some y ∧ IsValueAfter d v (p, before) y) ∨
        (recordsAfter v p = false ∧ after = none)) := by
  unfold parameterValues at h
  unfold IsParameterValue recordsAfter
  cases hfunction : p.isFunctionPointer with
  | true =>
    rw [hfunction, if_pos rfl] at h
    obtain ⟨view, hview, h⟩ := outcome_bind_eq_ok_iff.1 h
    cases h
    rw [if_pos rfl]
    exact ⟨⟨rfl, hview⟩, nofun, .inr ⟨by simp, rfl⟩⟩
  | false =>
    rw [hfunction, if_neg (by decide)] at h
    obtain ⟨found, hbefore, h⟩ := outcome_bind_eq_ok_iff.1 h
    have hvalue := isValueOf_of_required hbefore
    have hrecords : false = false → v.records p.name = true := fun _ => records_of_required hbefore
    -- the value after the call is decoded as that before it
    have htype : found.type = p.objectType := congrArg Parameter.type hvalue.declared
    have halignment : found.alignment = p.alignment :=
      congrArg Parameter.alignment hvalue.declared
    unfold IsValueAfter
    cases hchangeable : p.isChangeable with
    | true =>
      rw [hchangeable] at h
      obtain ⟨found', hafter, h⟩ := outcome_bind_eq_ok_iff.1 h
      cases h
      rw [htype, halignment]
      exact ⟨hvalue, hrecords, isValueOf_of_named? hafter⟩
    | false =>
      rw [hchangeable] at h
      obtain ⟨found', hafter, h⟩ := outcome_bind_eq_ok_iff.1 h
      cases h
      exact ⟨hvalue, hrecords, .inr ⟨rfl, (Except.ok.inj hafter).symm⟩⟩

/-- A global variable requires both of its objects. -/
theorem values_of_globalValues {p : Parameter} {before after : NamedValue}
    (h : (globalValues d v p).outcome = .ok (before, after)) :
    IsValueOf d v p before ∧
      IsValueOf d v ⟨afterName p.name, p.type.checkedType, p.alignment⟩ after ∧
      v.records p.name = true ∧ v.records (afterName p.name) = true := by
  obtain ⟨x, hbefore, h⟩ := outcome_bind_eq_ok_iff.1 h
  obtain ⟨y, hafter, h⟩ := outcome_bind_eq_ok_iff.1 h
  cases h
  exact ⟨isValueOf_of_required hbefore, isValueOf_of_required hafter,
    records_of_required hbefore, records_of_required hafter⟩

/-- The values of a stub are those of the object itself, and not of the first one of its name. -/
def IsStubValue (d : Decoder) (m : Method) (o : MemoryObject) (x : NamedValue) : Prop :=
  ∃ t, m.stubType? o.name = some t ∧ x.declared = ⟨o.name, t, none⟩ ∧
    (d.decode o.bytes t .parameter o.name).outcome = .ok x.view

/-- An object is decoded as the values of a stub exactly if it has the type of one. -/
theorem value_of_stubValue {m : Method} {o : MemoryObject} {found : Option NamedValue}
    (h : (stubValue d m o).outcome = .ok found) :
    ((m.stubType? o.name).isSome = true ∧ ∃ x, found = some x ∧ IsStubValue d m o x) ∨
      ((m.stubType? o.name).isSome = false ∧ found = none) := by
  -- both sides take the name apart in the same order
  unfold IsStubValue
  unfold Method.stubType?
  unfold stubValue at h
  cases hname : Text.before? symbolicEnding o.name with
  | none =>
    rw [hname] at h
    exact .inr ⟨rfl, (Except.ok.inj h).symm⟩
  | some stub =>
    rw [hname] at h
    dsimp only [Option.bind_some] at h ⊢
    split at h
    · next hparameter =>
      rw [if_pos hparameter]
      exact .inr ⟨rfl, (Except.ok.inj h).symm⟩
    · next hparameter =>
      rw [if_neg hparameter]
      cases hstub : m.stubs.find? stub with
      | none =>
        rw [hstub] at h
        exact .inr ⟨rfl, (Except.ok.inj h).symm⟩
      | some entry =>
        rw [hstub] at h
        obtain ⟨view, hview, h⟩ := outcome_bind_eq_ok_iff.1 h
        exact .inl ⟨rfl, _, (Except.ok.inj h).symm, _, rfl, rfl, hview⟩

/-- Whether the vector records the values of the function behind a parameter, and their type is
known. -/
def recordsFunction (m : Method) (v : TestVector) (p : Parameter) : Bool :=
  (m.functionPointers.find? p.name).isSome && v.records (p.name ++ symbolicEnding)

/-- The values of the function behind a parameter, recorded as those of its known type. -/
def IsFunctionValue (d : Decoder) (m : Method) (v : TestVector) (p : Parameter) (x : NamedValue) :
    Prop :=
  ∃ returned, m.functionPointers.find? p.name = some (p.name, returned) ∧
    IsValueOf d v ⟨p.name ++ symbolicEnding, returned.recording, none⟩ x

/-- The values of a function behind a parameter, if they are recorded and their type is known. -/
theorem value_of_stubParameterValue {m : Method} {p : Parameter} {found : Option NamedValue}
    (h : (stubParameterValue d v m p).outcome = .ok found) :
    (recordsFunction m v p = true ∧ ∃ x, found = some x ∧ IsFunctionValue d m v p x) ∨
      (recordsFunction m v p = false ∧ found = none) := by
  unfold IsFunctionValue recordsFunction
  unfold stubParameterValue at h
  cases hfind : m.functionPointers.find? p.name with
  | none =>
    rw [hfind] at h
    exact .inr ⟨rfl, (Except.ok.inj h).symm⟩
  | some entry =>
    obtain ⟨key, returned⟩ := entry
    -- an entry is found under its own name
    obtain rfl : key = p.name := Catalog.key_of_find? hfind
    rw [hfind] at h
    rcases isValueOf_of_named? h with ⟨hrecords, x, rfl, hx⟩ | ⟨hrecords, rfl⟩
    · exact .inl ⟨by simp [hrecords], x, rfl, returned, rfl, hx⟩
    · exact .inr ⟨by simp [hrecords], rfl⟩

/-! ### Cases -/

namespace Assembly

variable {a : Assembly} {predicate : Option Predicate} {returnType : CType} {vars : Variables}

/-- The names of the objects without which a vector has no case. -/
def requiredNames (a : Assembly) (returnType : CType) : List String :=
  a.method.receiver.toList.map (·.name) ++
    ((a.method.parameters.filter fun p => !p.isFunctionPointer).map (·.name) ++
      (a.method.globals.flatMap (fun p => [p.name, afterName p.name]) ++
        if returnType.isUnchecked then [] else [resultName]))

/-- **Complete case.** The case has all that the vector records for it, and nothing else. -/
structure Complete (a : Assembly) (returnType : CType) (d : Decoder) (v : TestVector)
    (c : TestCase) : Prop where
  required : ∀ name ∈ a.requiredNames returnType, v.records name = true
  parameters : List.Forall₂ (IsParameterValue d v) a.method.parameters c.parameters
  /-- The parameters that can change, if they are recorded, each with its value before the call. -/
  parametersAfter : List.Forall₂ (IsValueAfter d v)
    ((a.method.parameters.zip c.parameters).filter fun q => recordsAfter v q.1) c.parametersAfter
  globals : List.Forall₂ (IsValueOf d v) a.method.globals c.globals
  globalsAfter : List.Forall₂
    (fun p => IsValueOf d v ⟨afterName p.name, p.type.checkedType, p.alignment⟩)
    a.method.globals c.globalsAfter
  /-- The objects of stubs, in the order of the vector. -/
  stubs : List.Forall₂ (IsStubValue d a.method)
    (v.objects.filter fun o => (a.method.stubType? o.name).isSome) c.stubs
  /-- The function pointer parameters with recorded values of a known type. -/
  stubParameters : List.Forall₂ (IsFunctionValue d a.method v)
    ((a.method.parameters.filter (·.isFunctionPointer)).filter (recordsFunction a.method v))
    c.stubParameters

/-- A vector whose variables are decoded records all that is required. -/
theorem records_of_decodes {d : Decoder} (h : a.Decodes d v returnType vars) :
    ∀ name ∈ a.requiredNames returnType, v.records name = true := by
  intro name hname
  rcases List.mem_append.1 hname with hname | hname
  · -- the receiver
    obtain ⟨p, hp, rfl⟩ := List.mem_map.1 hname
    have hreceiver := h.receiver
    rw [Option.mem_toList.1 hp] at hreceiver
    obtain ⟨before, hbefore, -⟩ := outcome_bind_eq_ok_iff.1 hreceiver
    exact records_of_required hbefore
  rcases List.mem_append.1 hname with hname | hname
  · -- a parameter
    obtain ⟨p, hp, rfl⟩ := List.mem_map.1 hname
    obtain ⟨hmem, hplain⟩ := List.mem_filter.1 hp
    obtain ⟨⟨before, after⟩, -, hvalues⟩ := exists_result_of_mem h.parameters hmem
    exact (values_of_parameterValues hvalues).2.1 (by simpa using hplain)
  rcases List.mem_append.1 hname with hname | hname
  · -- a global variable
    obtain ⟨p, hp, hname⟩ := List.mem_flatMap.1 hname
    obtain ⟨⟨before, after⟩, -, hvalues⟩ := exists_result_of_mem h.globals hp
    obtain ⟨-, -, hbefore, hafter⟩ := values_of_globalValues hvalues
    rcases List.mem_cons.1 hname with rfl | hname
    · exact hbefore
    · rw [List.mem_singleton.1 hname]
      exact hafter
  · -- the returned value
    have hreturned := h.returned
    unfold returnedValue at hreturned
    split at hname
    · cases hname
    · next hchecked =>
      rw [if_neg hchecked] at hreturned
      rw [List.mem_singleton.1 hname]
      exact records_of_required hreturned

/-- The values of parameters after the call, each beside its value before the call. -/
theorem values_after {d : Decoder} {parameters : List Parameter}
    {values : List (NamedValue × Option NamedValue)}
    (h : List.Forall₂ (fun p x => (parameterValues d v p).outcome = .ok x) parameters values) :
    List.Forall₂
      (fun q found => (recordsAfter v q.1 = true ∧ ∃ y, found = some y ∧ IsValueAfter d v q y) ∨
        (recordsAfter v q.1 = false ∧ found = none))
      (parameters.zip (values.map (·.1))) (values.map (·.2)) := by
  induction h with
  | nil => exact .nil
  | cons hfirst _ ih => exact .cons (values_of_parameterValues hfirst).2.2 ih

/-- What the parts of a case are. -/
theorem complete_of_decodes {d : Decoder} {g : ObjectGraph v} {returned : NamedValue} {c : TestCase}
    (hdecodes : a.Decodes d v returnType vars)
    (hcompleted : (a.completeCase d v g returnType vars returned).outcome = .ok c) :
    a.Complete returnType d v c := by
  obtain ⟨lazyObjects, -, h⟩ := outcome_bind_eq_ok_iff.1 hcompleted
  obtain ⟨functions, hfunctions, h⟩ := outcome_bind_eq_ok_iff.1 h
  cases h
  have hparameters := outcome_mapM_eq_ok_iff.1 hdecodes.parameters
  have hglobals := outcome_mapM_eq_ok_iff.1 hdecodes.globals
  -- the optional values are filtered alike on both sides
  refine ⟨records_of_decodes hdecodes, ?_, ?_, ?_, ?_, ?_, ?_⟩
  · exact List.forall₂_map_right_iff.2
      (hparameters.imp fun p x hx => (values_of_parameterValues hx).1)
  · have hafter := forall₂_filterMap (values_after hparameters)
    rwa [List.filterMap_map] at hafter
  · exact List.forall₂_map_right_iff.2 (hglobals.imp fun p x hx => (values_of_globalValues hx).1)
  · exact List.forall₂_map_right_iff.2 (hglobals.imp fun p x hx => (values_of_globalValues hx).2.1)
  · exact forall₂_filterMap ((outcome_mapM_eq_ok_iff.1 hdecodes.stubs).imp fun o x =>
      value_of_stubValue)
  · exact forall₂_filterMap ((outcome_mapM_eq_ok_iff.1 hfunctions).imp fun p x =>
      value_of_stubParameterValue)

/-- Completeness is not about the number and the references of a case. -/
theorem Complete.relabelled {d : Decoder} {c : TestCase} (h : a.Complete returnType d v c)
    (index : Nat) (references : List Reference) :
    a.Complete returnType d v { c with index, references } :=
  ⟨h.required, h.parameters, h.parametersAfter, h.globals, h.globalsAfter, h.stubs,
    h.stubParameters⟩

/-- **A vector's own case is complete.** Its values are decoded with the addresses of the vector's
graph. -/
theorem complete_of_ownCase {c : TestCase} (h : a.ownCase predicate v = some c) :
    ∃ g, ObjectGraph.build v a.registry.pointerSize = .ok g ∧
      a.Complete (a.returnType predicate) (a.decoder g.table) v c := by
  obtain ⟨vars, returned, hmakes, -, -⟩ := ownCase_eq_some_iff.1 h
  cases hmakes with
  | @intro g completed _ hg hdecoded hcompleted =>
    exact ⟨g, hg,
      (complete_of_decodes (decodes_of_decodeVariables hdecoded) hcompleted).relabelled _ _⟩

/-- A vector that lacks a required object has no case of its own. -/
theorem ownCase_eq_none_of_lacking {name : String}
    (hname : name ∈ a.requiredNames (a.returnType predicate))
    (hlacking : ∀ o ∈ v.objects, o.name ≠ name) : a.ownCase predicate v = none := by
  refine Option.eq_none_iff_forall_ne_some.2 fun c hc => ?_
  obtain ⟨g, -, hcomplete⟩ := complete_of_ownCase hc
  obtain ⟨o, ho, hsame⟩ := TestVector.records_iff.1 (hcomplete.required name hname)
  exact hlacking o ho hsame

/-- A comparison as text leaves no type unchecked. -/
theorem isUnchecked_returnType (predicate : Option Predicate)
    (h : a.method.returnType.isUnchecked = false) :
    (a.returnType predicate).isUnchecked = false := by
  unfold returnType
  cases predicate with
  | none => exact h
  | some p =>
    dsimp only
    split
    · -- a comparison as text decodes the result as a string
      decide
    · exact h

/-! ### Lists of vectors -/

/-- Numbers have no part in a relation between vectors and their cases. -/
theorem forall₂_numbered {R : TestVector → TestCase → Prop}
    (hindex : ∀ {v c}, R v c → ∀ index, R v { c with index }) {vectors : List TestVector}
    {cases : List TestCase} (h : List.Forall₂ R vectors cases) (made : Nat) :
    List.Forall₂ R vectors (numbered made cases) := by
  induction h generalizing made with
  | nil => exact .nil
  | cons hfirst _ ih => exact .cons (hindex hfirst made) (ih (made + 1))

/-- **Complete cases.** Each case that is assembled is the complete case of a vector of its own, in
the order of the vectors. A vector that lacks a required object adds no case: without it the others
have the same cases. A returned value is required if its type is one that is checked. -/
theorem cases_complete {vectors : List TestVector} {cases : List TestCase}
    (h : (a.assemble vectors).1 = .ok cases) :
    ∃ predicate, a.predicate? = .ok predicate ∧
      (a.method.returnType.isUnchecked = false →
        resultName ∈ a.requiredNames (a.returnType predicate)) ∧
      (∃ kept : List TestVector, kept.Sublist vectors ∧
        List.Forall₂ (fun v c => ∃ g, ObjectGraph.build v a.registry.pointerSize = .ok g ∧
          a.Complete (a.returnType predicate) (a.decoder g.table) v c) kept cases) ∧
      ∀ front v back, vectors = front ++ v :: back →
        ∀ name ∈ a.requiredNames (a.returnType predicate), (∀ o ∈ v.objects, o.name ≠ name) →
          (a.assemble [v]).1 = .ok [] ∧ (a.assemble (front ++ back)).1 = .ok cases := by
  obtain ⟨predicate, hpredicate⟩ : ∃ predicate, a.predicate? = .ok predicate := by
    cases hpredicate : a.predicate? with
    -- without a predicate nothing is assembled
    | error e => cases h.symm.trans (assemble_eq_error_iff.2 hpredicate)
    | ok predicate => exact ⟨predicate, rfl⟩
  refine ⟨predicate, hpredicate, fun hchecked => ?_, ?_, ?_⟩
  · have hreturned := isUnchecked_returnType predicate hchecked
    refine List.mem_append_right _ (List.mem_append_right _ (List.mem_append_right _ ?_))
    rw [hreturned, if_neg (by decide)]
    exact List.mem_cons_self
  · -- the vectors that are kept are those with a case of their own
    refine ⟨(a.ownCases predicate vectors).map (·.1), ownCases_sublist a predicate vectors, ?_⟩
    rw [assemble_eq hpredicate] at h
    rw [← Except.ok.inj h, ← map_ownCases]
    refine forall₂_numbered ?_ ?_ 0
    · rintro v c ⟨g, hg, hcomplete⟩ index
      exact ⟨g, hg, hcomplete.relabelled index c.references⟩
    · rw [List.forall₂_map_left_iff, List.forall₂_map_right_iff, List.forall₂_same]
      exact fun x hx => complete_of_ownCase (ownCase_of_mem_ownCases hx)
  · rintro front v back rfl name hname hlacking
    -- the filters have only one predicate
    have hnone : ∀ predicate', a.predicate? = .ok predicate' → a.ownCase predicate' v = none := by
      intro predicate' hpredicate'
      obtain rfl : predicate = predicate' := Except.ok.inj (hpredicate.symm.trans hpredicate')
      exact ownCase_eq_none_of_lacking hname hlacking
    -- so the vector adds nothing, alone or among others
    refine ⟨?_, (assemble_of_ownCase_eq_none hnone front back).symm.trans h⟩
    rw [assemble_eq hpredicate, List.filterMap_cons, hnone predicate hpredicate]
    rfl

/-- A function of two pointers and a function pointer that uses a global variable and a stub. -/
def bumpAssembly : Assembly where
  method :=
    { name := "bump"
      parameters := [⟨"p", CType.int.pointer, none⟩, ⟨"q", CType.int.pointer, none⟩,
        ⟨"f", .functionPointer "int ()", none⟩]
      globals := [⟨"counter", .int, some 8⟩]
      stubs := .ofList [("rand", .int)]
      functionPointers := .ofList [("f", .simple "short")] }

/-- A vector that records what only one of the pointers leads to after the call. -/
def bumpVector : TestVector where
  objects :=
    [⟨"p", [1, 0, 0, 0], [], 0x20, false⟩, ⟨"q", [2, 0, 0, 0], [], 0x30, false⟩,
      ⟨"p_post", [3, 0, 0, 0], [], 0x40, false⟩, ⟨"counter", [4, 0, 0, 0], [], 0x50, false⟩,
      ⟨"counter_post", [5, 0, 0, 0], [], 0x60, false⟩,
      ⟨"rand_symbolic", [6, 0, 0, 0], [], 0x70, false⟩,
      ⟨"f_symbolic", List.replicate 20 0, [], 0x80, false⟩]

/-- A vector that lacks the global variable after the call. -/
def partialVector : TestVector where
  objects := [⟨"p", [1, 0, 0, 0], [], 0, false⟩, ⟨"q", [2, 0, 0, 0], [], 0, false⟩,
    ⟨"counter", [4, 0, 0, 0], [], 0, false⟩]

/-- The graph of the complete vector, in which no object holds a pointer. -/
def bumpGraph : ObjectGraph bumpVector where
  table := ⟨[(0x20, "p"), (0x30, "q"), (0x40, "p_post"), (0x50, "counter"),
    (0x60, "counter_post"), (0x70, "rand_symbolic"), (0x80, "f_symbolic")]⟩

/-- It is the one that is built. -/
theorem build_bumpVector : ObjectGraph.build bumpVector 8 = .ok bumpGraph := rfl

/-- The visits of its search, to what the two pointers lead to. -/
def bumpVisits : List (Visit bumpVector) :=
  [⟨⟨0, by decide⟩, .int, "p"⟩, ⟨⟨1, by decide⟩, .int, "q"⟩]

/-- The search ends with the two roots, which hold no pointers. -/
theorem declarations_bumpVector :
    (LazySearch.declarations (bumpAssembly.decoder bumpGraph.table) bumpGraph
      (bumpAssembly.roots .void)).outcome = .ok [] := by
  have hfollow : ∀ visit ∈ bumpVisits, ∀ seen, LazySearch.follow bumpAssembly.registry visit
      (bumpGraph.edgesFrom visit.object) seen = .ok [] := fun _ _ _ => rfl
  have hsearch : LazySearch.search (bumpAssembly.decoder bumpGraph.table).registry bumpGraph
      (bumpAssembly.roots .void) = (bumpVisits, none) := by
    unfold LazySearch.search
    change LazySearch.explore bumpAssembly.registry bumpGraph [bumpVisits[0], bumpVisits[1]]
      [bumpVisits[0].object, bumpVisits[1].object] = _
    rw [LazySearch.explore_cons_of_ok (hfollow _ (List.getElem_mem _) _)]
    simp only [List.map_nil, List.nil_append, List.append_nil]
    rw [LazySearch.explore_cons_of_ok (hfollow _ (List.getElem_mem _) _), List.nil_append,
      LazySearch.explore_nil]
    rfl
  unfold LazySearch.declarations
  rw [hsearch]
  rfl

/-- The vector makes a case. -/
theorem exists_case_bumpVector : ∃ c, (bumpAssembly.assemble [bumpVector]).1 = .ok [c] := by
  obtain ⟨vars, hvars⟩ : ∃ vars, (bumpAssembly.decodeVariables
      (bumpAssembly.decoder bumpGraph.table) bumpVector .void).outcome = .ok vars := ⟨_, rfl⟩
  obtain ⟨functions, hfunctions⟩ : ∃ functions,
      ((bumpAssembly.method.parameters.filter (·.isFunctionPointer)).mapM
        (stubParameterValue (bumpAssembly.decoder bumpGraph.table) bumpVector
          bumpAssembly.method)).outcome = .ok functions := ⟨_, rfl⟩
  obtain ⟨drafted, hdraft, -⟩ := exists_draft none (by decide) build_bumpVector hvars rfl rfl
    declarations_bumpVector hfunctions
  exact ⟨_, assemble_singleton rfl hdraft⟩

/-- The case of a vector with all required objects, beside a vector that lacks a global variable
after the call, is complete. It has the value of one pointer after the call, and that of the
stub. -/
theorem bump_complete :
    ∃ c before after rand,
      (bumpAssembly.assemble [partialVector, bumpVector]).1 = .ok [c] ∧
      (bumpAssembly.assemble [partialVector]).1 = .ok [] ∧
      bumpAssembly.Complete .void (bumpAssembly.decoder bumpGraph.table) bumpVector c ∧
      c.parameters.head? = some before ∧ c.parametersAfter = [after] ∧
      after.declared = ⟨"p_post", before.type, before.alignment⟩ ∧
      c.stubs = [rand] ∧ rand.declared = ⟨"rand_symbolic", .int, none⟩ := by
  obtain ⟨c, hc⟩ := exists_case_bumpVector
  have hboth : (bumpAssembly.assemble [partialVector, bumpVector]).1 =
      .ok (numbered 0 ([partialVector, bumpVector].filterMap (bumpAssembly.ownCase none))) :=
    congrArg Prod.fst (assemble_eq rfl _)
  obtain ⟨predicate, hpredicate, -, -, hdropped⟩ := cases_complete hboth
  cases hpredicate
  have hlacking : ∀ o ∈ partialVector.objects, o.name ≠ "counter_post" := by decide
  obtain ⟨hpartial, hrest⟩ :=
    hdropped [] partialVector [bumpVector] rfl "counter_post" (by decide) hlacking
  obtain ⟨predicate, hpredicate, -, ⟨kept, hkept, hcomplete⟩, -⟩ := cases_complete hc
  cases hpredicate
  -- the one case is that of the one vector
  obtain ⟨v, rest, ⟨g, hg, hcase⟩, hnil, rfl⟩ := List.forall₂_cons_right_iff.1 hcomplete
  cases hnil
  obtain rfl := List.mem_singleton.1 (hkept.subset List.mem_cons_self)
  obtain rfl : bumpGraph = g := Except.ok.inj (build_bumpVector.symm.trans hg)
  obtain ⟨before, others, -, -, hparameters⟩ := List.forall₂_cons_left_iff.1 hcase.parameters
  have hafter := hcase.parametersAfter
  rw [hparameters] at hafter
  have hchanged : ((bumpAssembly.method.parameters.zip (before :: others)).filter
      fun q => recordsAfter bumpVector q.1) = [(⟨"p", CType.int.pointer, none⟩, before)] := by
    -- nothing is recorded of the other pointer after the call, nor of the function pointer
    have hothers : ∀ p ∈ bumpAssembly.method.parameters.tail, ¬recordsAfter bumpVector p := by
      decide
    have hfirst : recordsAfter bumpVector ⟨"p", CType.int.pointer, none⟩ = true := by decide
    have hnone : ((bumpAssembly.method.parameters.tail.zip others).filter
        fun q => recordsAfter bumpVector q.1) = [] :=
      List.filter_eq_nil_iff.2 fun q hq => hothers q.1 (List.of_mem_zip hq).1
    have hzip : bumpAssembly.method.parameters.zip (before :: others) =
        (⟨"p", CType.int.pointer, none⟩, before) ::
          bumpAssembly.method.parameters.tail.zip others := rfl
    rw [hzip, List.filter_cons, hfirst, if_pos rfl, hnone]
  rw [hchanged] at hafter
  obtain ⟨after, rest, hp, hnil, hlast⟩ := List.forall₂_cons_left_iff.1 hafter
  cases hnil
  obtain ⟨rand, rest, ⟨t, ht, hrand, -⟩, hnil, hstubs⟩ := List.forall₂_cons_left_iff.1 hcase.stubs
  cases hnil
  obtain rfl : CType.int = t := Option.some.inj ht
  have hhead : c.parameters.head? = some before := by
    rw [hparameters]
    rfl
  exact ⟨c, before, after, rand, hboth.trans (hrest.symm.trans hc), hpartial, hcase, hhead, hlast,
    hp.declared, hstubs, hrand⟩

end Assembly

end TestCase

end SymVec

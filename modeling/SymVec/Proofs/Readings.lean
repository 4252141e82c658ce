import SymVec.Proofs.PointerAccounts
import SymVec.TestCase.Assembly

/-!
# Readings of a test vector

A test case is made by reading objects of a test vector as values: the receiver, parameters and
global variables before and after the call, the values of stubs, the returned value, and the lazy
objects that the search finds. Which object is read as which type, and under which name, is told by
the method and the names of the objects alone.

All else that goes into a case is silent: a function pointer has no object, and standard input and
the flags hold plain numbers. So the references of a case are those of its readings, in the order in
which they are made.

* `TestCase.Assembly.readings` — the readings of a test vector, in order;
* `TestCase.Reports` — what a decoding step owes to a list of readings;
* `TestCase.Assembly.exists_of_draft`, `TestCase.Assembly.exists_of_assemble` — the references of a
  case are those of its readings.
-/

namespace SymVec.TestCase

/-- **Reading** of an object as a value of a type, under a name. -/
structure Reading (v : TestVector) where
  object : v.Index
  type : CType
  usage : Usage
  name : String
  deriving DecidableEq

variable {v : TestVector} {α β : Type}

namespace Reading

/-- The value that is read. -/
def decode (x : Reading v) (d : Decoder) : Traced View :=
  d.decode (v.object x.object).bytes x.type x.usage x.name

/-- The references that the reading reports. -/
def references (x : Reading v) (d : Decoder) : List Reference := (x.decode d).references

end Reading

/-! ### Readings of variables -/

variable (v) in
/-- The reading of the object of that name, if it is recorded. -/
def namedReading (name : String) (t : CType) (usage : Usage) : List (Reading v) :=
  (v.find? name).toList.map fun i => ⟨i, t, usage, name⟩

variable (v) in
/-- The object of a variable before and after the call. -/
def receiverReadings (receiver : Option Parameter) : List (Reading v) :=
  match receiver with
  | none => []
  | some p =>
    namedReading v p.name p.objectType .parameter ++
      namedReading v (afterName p.name) p.objectType .parameter

variable (v) in
/-- The object of a parameter before the call, and after it if the call can change it. -/
def parameterReadings (p : Parameter) : List (Reading v) :=
  if p.isFunctionPointer then []
  else
    namedReading v p.name p.objectType .parameter ++
      if p.isChangeable then namedReading v (afterName p.name) p.objectType .parameter else []

variable (v) in
/-- The object of a global variable before and after the call. -/
def globalReadings (p : Parameter) : List (Reading v) :=
  namedReading v p.name p.type .parameter ++
    namedReading v (afterName p.name) p.type.checkedType .parameter

variable (v) in
/-- The object, if it records the values of a known stub. -/
def stubReadings (m : Method) (i : v.Index) : List (Reading v) :=
  match Text.before? symbolicEnding (v.object i).name with
  | none => []
  | some stub =>
    if m.parameters.any fun p => p.name = stub && p.isFunctionPointer then []
    else
      match m.stubs.find? stub with
      | some (_, returned) => [⟨i, returned.checkedType, .parameter, (v.object i).name⟩]
      | none => []

variable (v) in
/-- The object of the returned value, unless it is left unchecked. -/
def returnedReadings (returnType : CType) : List (Reading v) :=
  if returnType.isUnchecked then []
  else
    namedReading v resultName
      (if returnType.isReturnedArray then returnType else returnType.checkedType) .result

variable (v) in
/-- The values of the function behind a parameter, if its type is known. -/
def stubParameterReadings (m : Method) (p : Parameter) : List (Reading v) :=
  match m.functionPointers.find? p.name with
  | none => []
  | some (_, returned) =>
    namedReading v (p.name ++ symbolicEnding) returned.recording .parameter

/-- The lazy objects among the visited ones. -/
def lazyReadings (g : ObjectGraph v) (visits : List (Visit v)) : List (Reading v) :=
  (visits.filter fun visit => (v.object visit.object).isLazy).map fun visit =>
    ⟨visit.object, visit.type, .lazy, g.name visit.object⟩

variable (v) in
/-- The readings that come before the search for lazy objects. -/
def Assembly.variableReadings (a : Assembly) (returnType : CType) : List (Reading v) :=
  receiverReadings v a.method.receiver ++
    a.method.parameters.flatMap (parameterReadings v) ++
    a.method.globals.flatMap (globalReadings v) ++
    v.indices.flatMap (stubReadings v a.method) ++
    returnedReadings v returnType

/-- **Readings** of a test vector, in the order in which they are made. -/
def Assembly.readings (a : Assembly) (g : ObjectGraph v) (returnType : CType) : List (Reading v) :=
  a.variableReadings v returnType ++
    lazyReadings g (LazySearch.search a.registry g (a.roots returnType)).1 ++
    (a.method.parameters.filter (·.isFunctionPointer)).flatMap (stubParameterReadings v a.method)

/-! ### Steps that read -/

/-- **Reporting step.** If the step succeeds, then so do the readings, and it reports the references
of the readings in their order. -/
def Reports (d : Decoder) (step : Traced α) (readings : List (Reading v)) : Prop :=
  ∀ a, step.outcome = .ok a →
    step.references = readings.flatMap (·.references d) ∧
      ∀ x ∈ readings, ∃ view, (x.decode d).outcome = .ok view

variable {d : Decoder}

theorem reports_of_silent {step : Traced α} (h : step.references = []) :
    Reports d step ([] : List (Reading v)) := by
  intro a _
  exact ⟨h, by simp⟩

theorem reports_fail (e : DecodeError) (readings : List (Reading v)) :
    Reports d (Traced.fail e : Traced α) readings := by
  intro a ha
  exact absurd ha (Traced.outcome_fail_ne_ok e a)

/-- Reading one object reports what the reading does. -/
theorem reports_reading (x : Reading v) : Reports d (x.decode d) [x] := by
  intro view hview
  refine ⟨?_, fun y hy => ?_⟩
  · rw [List.flatMap_cons, List.flatMap_nil, List.append_nil]
    rfl
  · rw [List.mem_singleton.1 hy]
    exact ⟨view, hview⟩

/-- Steps in a row report their readings in a row. -/
theorem Reports.bind {step : Traced α} {next : α → Traced β} {first later : List (Reading v)}
    (h : Reports d step first)
    (hnext : ∀ a, step.outcome = .ok a → Reports d (next a) later) :
    Reports d (step >>= next) (first ++ later) := by
  intro b hb
  obtain ⟨a, ha, hb⟩ := Traced.outcome_bind_eq_ok_iff.1 hb
  obtain ⟨hrefs, hok⟩ := h a ha
  obtain ⟨hrefs', hok'⟩ := hnext a ha b hb
  refine ⟨?_, ?_⟩
  · rw [Traced.references_bind_of_ok ha, hrefs, hrefs', List.flatMap_append]
  · intro x hx
    rcases List.mem_append.1 hx with hx | hx
    · exact hok x hx
    · exact hok' x hx

/-- A silent step may come after. -/
theorem Reports.andThen {step : Traced α} {next : α → Traced β} {readings : List (Reading v)}
    (h : Reports d step readings) (hsilent : ∀ a, (next a).references = []) :
    Reports d (step >>= next) readings := by
  have hboth : Reports d (step >>= next) (readings ++ []) :=
    h.bind fun a _ => reports_of_silent (hsilent a)
  rwa [List.append_nil] at hboth

/-- A silent step may come before. -/
theorem reports_bind {step : Traced α} {next : α → Traced β} {readings : List (Reading v)}
    (hsilent : step.references = [])
    (h : ∀ a, step.outcome = .ok a → Reports d (next a) readings) :
    Reports d (step >>= next) readings :=
  (reports_of_silent hsilent).bind h

/-- Steps over a list report the readings of its elements in their order. -/
theorem reports_mapM {f : α → Traced β} {readings : α → List (Reading v)} {xs : List α}
    (h : ∀ x ∈ xs, Reports d (f x) (readings x)) :
    Reports d (xs.mapM f) (xs.flatMap readings) := by
  induction xs with
  | nil => exact reports_of_silent rfl
  | cons x rest ih =>
    rw [List.mapM_cons, List.flatMap_cons]
    refine (h x List.mem_cons_self).bind fun y _ => ?_
    exact (ih fun x' hx' => h x' (List.mem_cons_of_mem _ hx')).andThen fun _ => rfl

/-! ### Variables -/

/-- An object that is recorded is read, and one that is not is passed over. -/
theorem reports_named? (name : String) (t : CType) (alignment : Option Nat) (usage : Usage) :
    Reports d (named? d v name t alignment usage) (namedReading v name t usage) := by
  unfold named? namedReading TestVector.contents?
  cases v.find? name with
  | none => exact reports_of_silent rfl
  | some i => exact (reports_reading ⟨i, t, usage, name⟩).andThen fun _ => rfl

theorem reports_required (name : String) (t : CType) (alignment : Option Nat) (usage : Usage) :
    Reports d (required d v name t alignment usage) (namedReading v name t usage) := by
  refine (reports_named? name t alignment usage).andThen fun found => ?_
  cases found <;> rfl

theorem reports_receiverValues (receiver : Option Parameter) :
    Reports d (receiverValues d v receiver) (receiverReadings v receiver) := by
  cases receiver with
  | none => exact reports_of_silent rfl
  | some p =>
    refine (reports_required _ _ _ _).bind fun before _ => ?_
    exact (reports_named? _ _ _ _).andThen fun _ => rfl

/-- A function pointer is no pointer to an object. -/
theorem references_decode_of_functionPointer {p : Parameter} (h : p.isFunctionPointer = true)
    (bytes : Bytes) (usage : Usage) (name : String) :
    (d.decode bytes p.type.baseType usage name).references = [] := by
  -- the base type is a function type, which comes before all other kinds
  have hfunction : p.type.isFunction = true := by
    rw [Parameter.isFunctionPointer, CType.isFunctionPointer, CType.isArrayOfFunctionPointers] at h
    rcases Bool.or_eq_true_iff.1 h with h | h
    · exact (Bool.and_eq_true_iff.1 h).1
    · exact (Bool.and_eq_true_iff.1 h).1
  have hkind : d.registry.kindOf p.type.baseType = .functionPointer := by
    rw [Registry.kindOf, CType.levels_baseType]
    dsimp only
    rw [Registry.baseKind, CType.baseType, CType.isFunction_under, hfunction, if_pos rfl]
  rw [Decoder.decode, hkind]
  rfl

/-- The object of a parameter, before and after the call. -/
theorem reports_parameterValues (p : Parameter) :
    Reports d (parameterValues d v p) (parameterReadings v p) := by
  unfold parameterValues parameterReadings
  split
  · next hfunction =>
    refine reports_bind (references_decode_of_functionPointer hfunction _ _ _) fun _ _ => ?_
    exact reports_of_silent rfl
  · refine (reports_required _ _ _ _).bind fun before _ => ?_
    dsimp only
    split
    · exact (reports_named? _ _ _ _).andThen fun _ => rfl
    · exact reports_of_silent rfl

theorem reports_globalValues (p : Parameter) :
    Reports d (globalValues d v p) (globalReadings v p) := by
  refine (reports_required _ _ _ _).bind fun before _ => ?_
  exact (reports_required _ _ _ _).andThen fun _ => rfl

/-- A plain number reports no reference. -/
theorem references_named?_of_primitive {t : CType} (ht : d.registry.kindOf t = .primitive)
    (name : String) (alignment : Option Nat) (usage : Usage) :
    (named? d v name t alignment usage).references = [] := by
  unfold named?
  split
  · rfl
  · refine (Traced.references_bind_of_silent fun _ => rfl).trans ?_
    rw [Decoder.decode, ht]
    exact Decoder.references_primitiveView _ _

theorem references_stdinBytes (count : Int) : (stdinBytes d v count).references = [] := by
  unfold stdinBytes
  dsimp only
  split
  · rfl
  · split
    · rfl
    · exact references_readBytes _ _ _

/-- Standard input is a number and some bytes, and holds no pointers. -/
theorem references_stdinValue : (stdinValue d v).references = [] := by
  -- the count is a plain number
  have hkind : d.registry.kindOf .longLong = .primitive := rfl
  refine (Traced.references_bind_of_silent fun read => ?_).trans
    (references_named?_of_primitive hkind _ _ _)
  split
  · rfl
  · dsimp only
    split
    · rfl
    · split
      · rfl
      · exact (Traced.references_bind_of_silent fun _ => rfl).trans (references_stdinBytes _)

theorem references_flagLiteral (name : String) : (flagLiteral d v name).references = [] := by
  -- a flag is a plain number
  have hkind : d.registry.kindOf .int = .primitive := rfl
  exact (Traced.references_bind_of_silent fun _ => rfl).trans
    (references_named?_of_primitive hkind _ _ _)

/-- An object is read as the values of a stub, or not at all. -/
theorem reports_stubValue (m : Method) (i : v.Index) :
    Reports d (stubValue d m (v.object i)) (stubReadings v m i) := by
  unfold stubValue stubReadings
  cases Text.before? symbolicEnding (v.object i).name with
  | none => exact reports_of_silent rfl
  | some stub =>
    dsimp only
    split
    · exact reports_of_silent rfl
    · cases m.stubs.find? stub with
      | none => exact reports_of_silent rfl
      | some returned => exact (reports_reading ⟨i, _, .parameter, _⟩).andThen fun _ => rfl

theorem reports_stubValues (m : Method) :
    Reports d (v.objects.mapM (stubValue d m)) (v.indices.flatMap (stubReadings v m)) := by
  -- the objects are taken by their index
  have hobjects : v.objects = v.indices.map v.object := (List.map_get_finRange _).symm
  rw [hobjects, List.mapM_map]
  exact reports_mapM fun i _ => reports_stubValue m i

theorem reports_returnedValue (returnType : CType) :
    Reports d (returnedValue d v returnType) (returnedReadings v returnType) := by
  unfold returnedValue returnedReadings
  split
  · exact reports_of_silent rfl
  · exact reports_required _ _ _ _

theorem reports_stubParameterValue (m : Method) (p : Parameter) :
    Reports d (stubParameterValue d v m p) (stubParameterReadings v m p) := by
  unfold stubParameterValue stubParameterReadings
  cases m.functionPointers.find? p.name with
  | none => exact reports_of_silent rfl
  | some returned => exact reports_named? _ _ _ _

/-! ### Lazy objects -/

theorem reports_declare (g : ObjectGraph v) (visit : Visit v) :
    Reports d (LazySearch.declare d g visit)
      [(⟨visit.object, visit.type, .lazy, g.name visit.object⟩ : Reading v)] := by
  have hreading := reports_reading (d := d)
    (⟨visit.object, visit.type, .lazy, g.name visit.object⟩ : Reading v)
  unfold LazySearch.declare
  dsimp only
  split
  · exact reports_fail _ _
  · exact hreading.andThen fun _ => rfl

/-- **Lazy objects** are read in the order of the search. -/
theorem reports_declarations (g : ObjectGraph v) (roots : List Root) :
    Reports d (LazySearch.declarations d g roots)
      (lazyReadings g (LazySearch.search d.registry g roots).1) := by
  refine reports_bind (Traced.references_forM_of_silent (fun _ => rfl) _) fun _ _ => ?_
  have hdeclared : Reports d
      (((LazySearch.search d.registry g roots).1.filter fun visit =>
        (v.object visit.object).isLazy).mapM (LazySearch.declare d g)) _ :=
    reports_mapM fun visit _ => reports_declare g visit
  rw [← List.map_eq_flatMap] at hdeclared
  -- an error that ends the search comes after the declarations
  refine Reports.andThen hdeclared fun declared => ?_
  split <;> rfl

/-! ### Cases -/

namespace Assembly

variable {a : Assembly}

/-- Standard input is silent, whether it is symbolic or not. -/
theorem reports_ifStdin {next : Option NamedValue → Traced β} {readings : List (Reading v)}
    {isSymbolic : Bool} (h : ∀ stdin, Reports d (next stdin) readings) :
    Reports d (if isSymbolic then stdinValue d v >>= next else pure none >>= next) readings := by
  split
  · exact reports_bind references_stdinValue fun stdin _ => h stdin
  · exact reports_bind rfl fun stdin _ => h stdin

/-- **Variables** are read in the order in which they are decoded. -/
theorem reports_decodeVariables (returnType : CType) :
    Reports d (a.decodeVariables d v returnType) (a.variableReadings v returnType) := by
  unfold decodeVariables variableReadings
  simp only [List.append_assoc]
  -- every step but standard input and the flags has readings of its own
  refine (reports_receiverValues _).bind fun _ _ => ?_
  refine (reports_mapM fun p _ => reports_parameterValues p).bind fun _ _ => ?_
  refine (reports_mapM fun p _ => reports_globalValues p).bind fun _ _ => ?_
  refine reports_ifStdin fun _ => ?_
  refine (reports_stubValues a.method).bind fun _ _ => ?_
  refine (reports_returnedValue returnType).andThen fun _ => ?_
  refine (Traced.references_bind_of_silent fun _ => ?_).trans (references_flagLiteral _)
  exact (Traced.references_bind_of_silent fun _ => rfl).trans (references_flagLiteral _)

/-- The case of decoded variables declares the lazy objects that the search finds. -/
theorem outcome_completeCase {g : ObjectGraph v} {returnType : CType} {vars : Variables}
    {returned : NamedValue} {c : TestCase}
    (h : (a.completeCase d v g returnType vars returned).outcome = .ok c) :
    (LazySearch.declarations d g (a.roots returnType)).outcome = .ok c.lazyObjects := by
  obtain ⟨declared, hdeclared, h⟩ := Traced.outcome_bind_eq_ok_iff.1 h
  obtain ⟨stubs, -, h⟩ := Traced.outcome_bind_eq_ok_iff.1 h
  cases h
  exact hdeclared

/-- After the variables come the lazy objects, and then the stubs of function pointers. -/
theorem reports_completeCase (g : ObjectGraph v) (returnType : CType) (vars : Variables)
    (returned : NamedValue) :
    Reports d (a.completeCase d v g returnType vars returned)
      (lazyReadings g (LazySearch.search d.registry g (a.roots returnType)).1 ++
        (a.method.parameters.filter (·.isFunctionPointer)).flatMap
          (stubParameterReadings v a.method)) := by
  refine (reports_declarations g _).bind fun _ _ => ?_
  exact (reports_mapM fun p _ => reports_stubParameterValue a.method p).andThen fun _ => rfl

/-- A case that is selected is the completed one, and completing it is all that is reported. -/
theorem exists_of_selectCase {g : ObjectGraph v} {predicate : Option Predicate} {vars : Variables}
    {c : TestCase} (h : (a.selectCase d v g predicate vars).outcome = .ok (some c)) :
    ∃ returned,
      (a.completeCase d v g (a.returnType predicate) vars returned).outcome = .ok c ∧
      (a.selectCase d v g predicate vars).references =
        (a.completeCase d v g (a.returnType predicate) vars returned).references := by
  unfold selectCase at h ⊢
  split at h
  · cases h
  · next hkeep =>
    rw [if_neg hkeep]
    obtain ⟨selected, hselected, h⟩ := Traced.outcome_bind_eq_ok_iff.1 h
    cases selected with
    | none => cases h
    | some returned =>
      obtain ⟨c', hc', heq⟩ := Traced.outcome_map_eq_ok_iff.1 h
      cases heq
      refine ⟨returned, hc', ?_⟩
      rw [Traced.references_bind_of_ok hselected, Traced.references_ofExcept, List.nil_append]
      exact Traced.references_map _ _

/-- **A draft reports its readings.** The draft of a case has a graph of its vector, declares the
lazy objects that the search finds in it, and reports the references of the readings in their
order. -/
theorem exists_of_draft {predicate : Option Predicate} {c : TestCase}
    (h : (a.draft predicate v).outcome = .ok (some c)) :
    ∃ g, ObjectGraph.build v a.registry.pointerSize = .ok g ∧
      (LazySearch.declarations (a.decoder g.table) g (a.roots (a.returnType predicate))).outcome =
        .ok c.lazyObjects ∧
      (a.draft predicate v).references =
        (a.readings g (a.returnType predicate)).flatMap (·.references (a.decoder g.table)) ∧
      ∀ x ∈ a.readings g (a.returnType predicate),
        ∃ view, (x.decode (a.decoder g.table)).outcome = .ok view := by
  unfold draft at h ⊢
  split at h
  · cases h
  · next hkeep =>
    rw [if_neg hkeep]
    obtain ⟨g, hg, h⟩ := Traced.outcome_bind_eq_ok_iff.1 h
    obtain ⟨vars, hvars, hselect⟩ := Traced.outcome_bind_eq_ok_iff.1 h
    obtain ⟨returned, hcomplete, hselectRefs⟩ := exists_of_selectCase hselect
    -- the two stages of a draft, of which each reports its readings
    obtain ⟨hvarRefs, hvarOk⟩ := reports_decodeVariables _ vars hvars
    obtain ⟨hcaseRefs, hcaseOk⟩ := reports_completeCase g _ vars returned c hcomplete
    refine ⟨g, hg, outcome_completeCase hcomplete, ?_, ?_⟩
    · rw [Traced.references_bind_of_ok hg, Traced.references_ofExcept, List.nil_append]
      dsimp only
      rw [Traced.references_bind_of_ok hvars, hselectRefs, hvarRefs, hcaseRefs, readings,
        List.append_assoc, ← List.flatMap_append]
      rfl
    · intro x hx
      rw [readings, List.append_assoc] at hx
      rcases List.mem_append.1 hx with hx | hx
      · exact hvarOk x hx
      · exact hcaseOk x hx

/-- A draft succeeds if its parts do and the filters keep it. -/
theorem exists_draft (predicate : Option Predicate) {g : ObjectGraph v} {vars : Variables}
    {returned : NamedValue} {declared : List LazyDeclaration} {stubs : List (Option NamedValue)}
    (hcarries : a.carriesValues (a.returnType predicate) v = true)
    (hg : ObjectGraph.build v a.registry.pointerSize = .ok g)
    (hvars : (a.decodeVariables (a.decoder g.table) v (a.returnType predicate)).outcome = .ok vars)
    (hflag : (a.filters.pathFlag && vars.pathFlag != some "1") = false)
    (hreturned : applyPredicate predicate vars.returned = .ok (some returned))
    (hdeclared : (LazySearch.declarations (a.decoder g.table) g
      (a.roots (a.returnType predicate))).outcome = .ok declared)
    (hstubs : ((a.method.parameters.filter (·.isFunctionPointer)).mapM
      (stubParameterValue (a.decoder g.table) v a.method)).outcome = .ok stubs) :
    ∃ c, (a.draft predicate v).outcome = .ok (some c) ∧ c.lazyObjects = declared := by
  -- once the lazy objects and the stubs are decoded, nothing else can fail
  obtain ⟨c, hc⟩ : ∃ c, (a.completeCase (a.decoder g.table) v g (a.returnType predicate) vars
      returned).outcome = .ok c := by
    rw [completeCase, Traced.bind_of_ok hdeclared]
    dsimp only
    rw [Traced.bind_of_ok hstubs]
    exact ⟨_, rfl⟩
  have hlazy : c.lazyObjects = declared :=
    Except.ok.inj ((outcome_completeCase hc).symm.trans hdeclared)
  have hselect : (a.selectCase (a.decoder g.table) v g predicate vars).outcome = .ok (some c) := by
    unfold selectCase
    rw [hflag]
    refine Traced.outcome_bind_eq_ok_iff.2 ⟨some returned, hreturned, ?_⟩
    exact Traced.outcome_map_eq_ok_iff.2 ⟨c, hc, rfl⟩
  refine ⟨c, ?_, hlazy⟩
  unfold draft
  rw [hcarries]
  refine Traced.outcome_bind_eq_ok_iff.2 ⟨g, hg, ?_⟩
  exact Traced.outcome_bind_eq_ok_iff.2 ⟨vars, hvars, hselect⟩

/-! ### All test vectors -/

/-- The one vector whose draft is kept makes one case. -/
theorem assemble_singleton {predicate : Option Predicate} {drafted : TestCase}
    (hpredicate : a.predicate? = .ok predicate)
    (hdraft : (a.draft predicate v).outcome = .ok (some drafted)) :
    (a.assemble [v]).1 =
      .ok [{ drafted with index := 0, references := (a.draft predicate v).references }] := by
  -- the draft contributes its case
  have hcontribution : contribution (a.draft predicate v) =
      .case { drafted with references := (a.draft predicate v).references } := by
    rw [contribution, hdraft]
  rw [assemble, hpredicate]
  simp only [run, hcontribution]
  rfl

/-- The case of one vector without filters and function pointers, if the parts of its draft
succeed. -/
theorem exists_case_of_unfiltered (hfilters : a.filters = {})
    (hobjects : a.method.parameters.filter (·.isFunctionPointer) = [])
    (hcarries : a.carriesValues a.method.returnType v = true) {g : ObjectGraph v}
    (hg : ObjectGraph.build v a.registry.pointerSize = .ok g) {vars : Variables}
    (hvars : (a.decodeVariables (a.decoder g.table) v a.method.returnType).outcome = .ok vars)
    {declared : List LazyDeclaration}
    (hdeclared : (LazySearch.declarations (a.decoder g.table) g
      (a.roots a.method.returnType)).outcome = .ok declared) :
    ∃ c, (a.assemble [v]).1 = .ok [c] ∧ c.lazyObjects = declared ∧
      c.references =
        (a.readings g a.method.returnType).flatMap (·.references (a.decoder g.table)) := by
  have hpredicate : a.predicate? = .ok none := by rw [predicate?, hfilters]
  have hflag : (a.filters.pathFlag && vars.pathFlag != some "1") = false := by
    rw [hfilters]
    rfl
  -- no parameter is a function pointer, so there are no stubs to decode
  have hstubs : ((a.method.parameters.filter (·.isFunctionPointer)).mapM
      (stubParameterValue (a.decoder g.table) v a.method)).outcome = .ok [] := by
    rw [hobjects]
    rfl
  obtain ⟨drafted, hdraft, hlazy⟩ :=
    exists_draft none hcarries hg hvars hflag rfl hdeclared hstubs
  obtain ⟨g', hg', -, hrefs, -⟩ := exists_of_draft hdraft
  obtain rfl : g = g' := Except.ok.inj (hg.symm.trans hg')
  exact ⟨_, assemble_singleton hpredicate hdraft, hlazy, hrefs⟩

/-- A contributed case is the draft with the references that were reported for it. -/
theorem exists_of_contribution {t : Traced (Option TestCase)} {c : TestCase}
    (h : contribution t = .case c) :
    ∃ drafted, t.outcome = .ok (some drafted) ∧ c.references = t.references ∧
      c.lazyObjects = drafted.lazyObjects := by
  unfold contribution at h
  split at h
  · next drafted hdrafted =>
    cases h
    exact ⟨drafted, hdrafted, rfl, rfl⟩
  · cases h
  · split at h <;> cases h

/-- **Runs.** Each case comes of the draft of one of the vectors. -/
theorem exists_of_run {predicate : Option Predicate} {position made : Nat}
    {vectors : List TestVector} {cases : List TestCase}
    (h : (a.run predicate position made vectors).1 = .ok cases) {c : TestCase} (hc : c ∈ cases) :
    ∃ v ∈ vectors, ∃ drafted, (a.draft predicate v).outcome = .ok (some drafted) ∧
      c.references = (a.draft predicate v).references ∧ c.lazyObjects = drafted.lazyObjects := by
  induction vectors generalizing position made cases with
  | nil =>
    cases h
    cases hc
  | cons v rest ih =>
    -- a case that the vectors after the first one make
    have later : ∀ {position made : Nat} {cases' : List TestCase},
        (a.run predicate position made rest).1 = .ok cases' → c ∈ cases' →
          ∃ v' ∈ v :: rest, ∃ drafted, (a.draft predicate v').outcome = .ok (some drafted) ∧
            c.references = (a.draft predicate v').references ∧
            c.lazyObjects = drafted.lazyObjects := by
      intro position made cases' hrun hc'
      obtain ⟨v', hv', hdraft⟩ := ih hrun hc'
      exact ⟨v', List.mem_cons_of_mem _ hv', hdraft⟩
    cases hcontribution : contribution (a.draft predicate v) with
    | case first =>
      simp only [run, hcontribution] at h
      cases hrest : (a.run predicate (position + 1) (made + 1) rest).1 with
      | error e =>
        rw [hrest] at h
        cases h
      | ok cases' =>
        rw [hrest] at h
        cases h
        rcases List.mem_cons.1 hc with rfl | hc
        · -- numbering the case leaves its references alone
          obtain ⟨drafted, hdrafted, hrefs, hlazy⟩ := exists_of_contribution hcontribution
          exact ⟨v, List.mem_cons_self, drafted, hdrafted, hrefs, hlazy⟩
        · exact later hrest hc
    | nothing =>
      simp only [run, hcontribution] at h
      exact later h hc
    | skipped e =>
      simp only [run, hcontribution] at h
      exact later h hc
    -- an error that concerns all cases leaves none
    | stop e =>
      simp only [run, hcontribution] at h
      cases h

/-- **A case reports its readings.** Each case of an assembly is drafted from one of the vectors. -/
theorem exists_of_assemble {vectors : List TestVector} {cases : List TestCase}
    (h : (a.assemble vectors).1 = .ok cases) {c : TestCase} (hc : c ∈ cases) :
    ∃ predicate, a.predicate? = .ok predicate ∧ ∃ v ∈ vectors, ∃ g : ObjectGraph v,
      ObjectGraph.build v a.registry.pointerSize = .ok g ∧
      (LazySearch.declarations (a.decoder g.table) g (a.roots (a.returnType predicate))).outcome =
        .ok c.lazyObjects ∧
      c.references =
        (a.readings g (a.returnType predicate)).flatMap (·.references (a.decoder g.table)) ∧
      ∀ x ∈ a.readings g (a.returnType predicate),
        ∃ view, (x.decode (a.decoder g.table)).outcome = .ok view := by
  unfold assemble at h
  split at h
  · cases h
  · next predicate hpredicate =>
    obtain ⟨v, hv, drafted, hdraft, hrefs, hlazy⟩ := exists_of_run h hc
    obtain ⟨g, hg, hdeclared, hdraftRefs, hok⟩ := exists_of_draft hdraft
    refine ⟨predicate, hpredicate, v, hv, g, hg, ?_, hrefs.trans hdraftRefs, hok⟩
    rw [hlazy]
    exact hdeclared

end Assembly

end SymVec.TestCase

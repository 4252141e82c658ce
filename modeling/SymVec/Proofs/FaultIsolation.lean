import SymVec.Proofs.Containment

/-!
# Isolation of faults

The cases of a list of test vectors are the cases of each vector by itself, in order and numbered
without gaps. A vector that cannot be decoded is given up with a warning that tells its position,
and changes nothing about the others. The assembly as a whole fails by the predicate of its filters
and by nothing else.

* `TestCase.Assembly.run_eq` — a run as the cases and warnings of each vector by itself;
* `TestCase.Assembly.faults_isolated` — when the assembly fails, and what each vector adds to it.
-/

namespace SymVec

/-- An error that concerns all cases is a bad configuration. -/
theorem DecodeError.eq_configuration {e : DecodeError} (h : e.isCaseLocal = false) :
    ∃ what, e = .configuration what := by
  cases e with
  | configuration what => exact ⟨what, rfl⟩
  | _ => cases h

namespace TestCase

/-- The cases, numbered from `made` on. -/
def numbered (made : Nat) (cases : List TestCase) : List TestCase :=
  (cases.zipIdx made).map fun p => { p.1 with index := p.2 }

@[simp] theorem length_numbered (made : Nat) (cases : List TestCase) :
    (numbered made cases).length = cases.length := by
  rw [numbered, List.length_map, List.length_zipIdx]

theorem numbered_cons (made : Nat) (c : TestCase) (cases : List TestCase) :
    numbered made (c :: cases) = { c with index := made } :: numbered (made + 1) cases := rfl

/-- The cases of a later list are numbered after those of an earlier one. -/
theorem numbered_append (made : Nat) (front back : List TestCase) :
    numbered made (front ++ back) = numbered made front ++ numbered (made + front.length) back := by
  rw [numbered, List.zipIdx_append, List.map_append]
  rfl

/-- Numbers have no gaps. -/
theorem index_numbered (made : Nat) (cases : List TestCase) :
    (numbered made cases).map (·.index) = List.range' made cases.length := by
  induction cases generalizing made with
  | nil => rfl
  | cons c rest ih => rw [numbered_cons, List.map_cons, ih, List.length_cons, List.range'_succ]

/-- To start later is to move all numbers. -/
theorem numbered_eq_map (made : Nat) (cases : List TestCase) :
    numbered made cases =
      (numbered 0 cases).map fun c => { c with index := made + c.index } := by
  induction cases generalizing made with
  | nil => rfl
  | cons c rest ih =>
    rw [numbered_cons, numbered_cons, List.map_cons, ih, ih 1, List.map_map]
    simp only [Function.comp_def, Nat.add_zero, Nat.add_assoc]

namespace Assembly

variable {a : Assembly} {predicate : Option Predicate} {v : TestVector}

/-! ### One vector -/

/-- **Own case** of a vector, if it has one, with its references. -/
def ownCase (a : Assembly) (predicate : Option Predicate) (v : TestVector) : Option TestCase :=
  match (a.draft predicate v).outcome with
  | .ok (some c) => some { c with references := (a.draft predicate v).references }
  | _ => none

/-- **Own warnings** of a vector at that position. -/
def ownWarnings (a : Assembly) (predicate : Option Predicate) (position : Nat) (v : TestVector) :
    List Warning :=
  (a.draft predicate v).warnings ++
    match (a.draft predicate v).outcome with
    | .ok _ => []
    | .error e => [.skippedCase a.method.name position e]

/-- A vector makes one case, or none without being given up, or is given up with one warning that
tells its position and the error. -/
theorem ownCase_cases (a : Assembly) (predicate : Option Predicate) (position : Nat)
    (v : TestVector) :
    (∃ c, a.ownCase predicate v = some c ∧
      (a.ownWarnings predicate position v).filter Warning.isSkip = []) ∨
    (a.ownCase predicate v = none ∧
      (a.ownWarnings predicate position v).filter Warning.isSkip = []) ∨
    (∃ e, (a.draft predicate v).outcome = .error e ∧ a.ownCase predicate v = none ∧
      (a.ownWarnings predicate position v).filter Warning.isSkip =
        [.skippedCase a.method.name position e]) := by
  -- only the assembly says that a case is given up
  have hnone : (a.draft predicate v).warnings.filter Warning.isSkip = [] := by
    refine List.filter_eq_nil_iff.2 fun w hw => ?_
    rw [(contained_draft predicate v).unskipped w hw]
    exact Bool.false_ne_true
  unfold ownCase ownWarnings
  cases (a.draft predicate v).outcome with
  -- a draft that is an error has no case, and its error is told once
  | error e =>
    refine Or.inr (Or.inr ⟨e, rfl, rfl, ?_⟩)
    rw [List.filter_append, hnone]
    rfl
  | ok found =>
    dsimp only
    rw [List.append_nil]
    cases found with
    | none => exact Or.inr (Or.inl ⟨rfl, hnone⟩)
    | some c => exact Or.inl ⟨_, rfl, hnone⟩

/-! ### Runs -/

/-- **Run.** Its cases are those of each vector by itself, and so are its warnings. -/
theorem run_eq (a : Assembly) (predicate : Option Predicate) (position made : Nat)
    (vectors : List TestVector) :
    a.run predicate position made vectors =
      (.ok (numbered made (vectors.filterMap (a.ownCase predicate))),
        (vectors.zipIdx position).flatMap fun p => a.ownWarnings predicate p.2 p.1) := by
  induction vectors generalizing position made with
  | nil => rfl
  | cons v rest ih =>
    have hcontained : (a.draft predicate v).Contained := contained_draft predicate v
    rw [run, List.filterMap_cons, List.zipIdx_cons, List.flatMap_cons, ownCase, ownWarnings]
    cases houtcome : (a.draft predicate v).outcome with
    | error e =>
      -- the error concerns this case, and the run goes on
      have hcontribution : contribution (a.draft predicate v) = .skipped e := by
        rw [contribution, houtcome]
        exact if_pos (hcontained.caseLocal houtcome)
      simp only [hcontribution, ih, List.append_assoc, List.singleton_append]
    | ok found =>
      cases found with
      -- the vector adds nothing, and its number goes to the next case
      | none =>
        have hcontribution : contribution (a.draft predicate v) = .nothing := by
          rw [contribution, houtcome]
        simp only [hcontribution, ih, List.append_nil]
      | some c =>
        have hcontribution : contribution (a.draft predicate v) =
            .case { c with references := (a.draft predicate v).references } := by
          rw [contribution, houtcome]
        simp only [hcontribution, ih, List.append_nil]
        rfl

/-- What an assembly yields, once its predicate is made. -/
theorem assemble_eq (h : a.predicate? = .ok predicate) (vectors : List TestVector) :
    a.assemble vectors =
      (.ok (numbered 0 (vectors.filterMap (a.ownCase predicate))),
        vectors.zipIdx.flatMap fun p => a.ownWarnings predicate p.2 p.1) := by
  rw [assemble, h]
  exact run_eq a predicate 0 0 vectors

/-! ### Assemblies -/

/-- Filters without a predicate are always in order. -/
theorem predicate?_eq_error_iff {e : DecodeError} :
    a.predicate? = .error e ↔ ∃ texts, a.filters.predicate = some texts ∧
      Predicate.make texts.operator texts.expected texts.validation = .error e := by
  rw [predicate?]
  cases a.filters.predicate with
  | none => simp
  | some texts =>
    dsimp only
    cases hmake : Predicate.make texts.operator texts.expected texts.validation with
    | error e' => simp [Except.map, hmake]
    | ok p => simp [Except.map, hmake]

/-- The assembly fails by its predicate, and by nothing else. -/
theorem assemble_eq_error_iff {vectors : List TestVector} {e : DecodeError} :
    (a.assemble vectors).1 = .error e ↔ a.predicate? = .error e := by
  cases hpredicate : a.predicate? with
  | error e' =>
    rw [assemble, hpredicate]
    exact ⟨fun h => congrArg _ (Except.error.inj h), fun h => congrArg _ (Except.error.inj h)⟩
  | ok predicate =>
    rw [assemble_eq hpredicate]
    -- with a predicate neither side is an error
    constructor <;> intro h <;> cases h

/-- A vector without a case of its own changes nothing about the cases of the others. -/
theorem assemble_of_ownCase_eq_none
    (h : ∀ predicate, a.predicate? = .ok predicate → a.ownCase predicate v = none)
    (front back : List TestVector) :
    (a.assemble (front ++ v :: back)).1 = (a.assemble (front ++ back)).1 := by
  cases hpredicate : a.predicate? with
  | error e =>
    rw [assemble_eq_error_iff.2 hpredicate, assemble_eq_error_iff.2 hpredicate]
  | ok predicate =>
    rw [assemble_eq hpredicate, assemble_eq hpredicate]
    dsimp only
    rw [List.filterMap_append, List.filterMap_append, List.filterMap_cons, h predicate hpredicate]

/-- A vector whose draft is an error is given up with it, at its position. -/
theorem skippedCase_mem_assemble (hpredicate : a.predicate? = .ok predicate) {e : DecodeError}
    (h : (a.draft predicate v).outcome = .error e) (front back : List TestVector) :
    .skippedCase a.method.name front.length e ∈ (a.assemble (front ++ v :: back)).2 := by
  -- the position of a vector is the number of vectors before it
  have hmem : (v, front.length) ∈ (front ++ v :: back).zipIdx := by
    rw [List.zipIdx_append, List.zipIdx_cons, Nat.zero_add]
    exact List.mem_append_right _ List.mem_cons_self
  rw [assemble_eq hpredicate]
  refine List.mem_flatMap.2 ⟨_, hmem, ?_⟩
  rw [ownWarnings, h]
  exact List.mem_append_right _ List.mem_cons_self

/-- **Isolated cases.** The cases and warnings of a list of vectors, of which none has an effect on
the others. -/
structure Isolated (a : Assembly) (predicate : Option Predicate) (vectors : List TestVector)
    (cases : List TestCase) (warnings : List Warning) : Prop where
  /-- Each case is that of a vector by itself, but for its number. -/
  cases_eq : cases = numbered 0 (vectors.filterMap (a.ownCase predicate))
  warnings_eq : warnings = vectors.zipIdx.flatMap fun p => a.ownWarnings predicate p.2 p.1
  index_eq : cases.map (·.index) = List.range cases.length
  /-- The cases of a list are those of its parts, with the numbers of the later ones moved. -/
  append : ∀ xs ys, vectors = xs ++ ys → ∃ front back,
    (a.assemble xs).1 = .ok front ∧ (a.assemble ys).1 = .ok back ∧
      cases = front ++ back.map fun c => { c with index := front.length + c.index }
  /-- A vector makes one case, or none without being given up, or is given up with one warning that
  tells its position and the error. -/
  vector : ∀ p ∈ vectors.zipIdx,
    (∃ c, a.ownCase predicate p.1 = some c ∧
      (a.ownWarnings predicate p.2 p.1).filter Warning.isSkip = []) ∨
    (a.ownCase predicate p.1 = none ∧
      (a.ownWarnings predicate p.2 p.1).filter Warning.isSkip = []) ∨
    (∃ e, (a.draft predicate p.1).outcome = .error e ∧ a.ownCase predicate p.1 = none ∧
      (a.ownWarnings predicate p.2 p.1).filter Warning.isSkip =
        [.skippedCase a.method.name p.2 e])

/-- **Assemblies are isolated**, once their predicate is made. -/
theorem isolated_assemble (h : a.predicate? = .ok predicate) (vectors : List TestVector) :
    ∃ cases, (a.assemble vectors).1 = .ok cases ∧
      a.Isolated predicate vectors cases (a.assemble vectors).2 := by
  rw [assemble_eq h]
  refine ⟨_, rfl, rfl, rfl, ?_, ?_, fun p _ => ownCase_cases a predicate p.2 p.1⟩
  · rw [index_numbered, length_numbered, List.range_eq_range']
  · rintro xs ys rfl
    refine ⟨_, _, congrArg Prod.fst (assemble_eq h xs), congrArg Prod.fst (assemble_eq h ys), ?_⟩
    -- the cases of the later vectors are numbered after those of the first ones
    have hmoved := numbered_eq_map (xs.filterMap (a.ownCase predicate)).length
      (ys.filterMap (a.ownCase predicate))
    rw [List.filterMap_append, numbered_append, length_numbered, Nat.zero_add, hmoved]

/-- **Faults are isolated.** The assembly fails exactly if the filters have a predicate that cannot
be made, with this bad configuration and whatever the vectors are. Otherwise it yields the cases of
each vector by itself, numbered without gaps, and each vector that is given up has one warning. -/
theorem faults_isolated (a : Assembly) (vectors : List TestVector) :
    (∀ e, (a.assemble vectors).1 = .error e ↔ ∃ texts, a.filters.predicate = some texts ∧
      Predicate.make texts.operator texts.expected texts.validation = .error e) ∧
    (∀ e, (a.assemble vectors).1 = .error e → ∃ what, e = .configuration what) ∧
    ∀ predicate, a.predicate? = .ok predicate → ∃ cases, (a.assemble vectors).1 = .ok cases ∧
      a.Isolated predicate vectors cases (a.assemble vectors).2 := by
  refine ⟨fun e => assemble_eq_error_iff.trans predicate?_eq_error_iff, fun e he => ?_,
    fun predicate h => isolated_assemble h vectors⟩
  exact DecodeError.eq_configuration (isCaseLocal_of_assemble he)

/-- A function of one number. -/
def countMethod : Method where
  name := "count"
  parameters := [⟨"x", .int, none⟩]

/-- A vector that lacks the number. -/
def lackingVector : TestVector where
  objects := [⟨"y", [0], [], 0, false⟩, ⟨"z", [0], [], 0, false⟩]

/-- A vector that has it. -/
def countVector : TestVector where
  objects := [⟨"x", [3, 0, 0, 0], [], 0, false⟩, ⟨"y", [0], [], 0, false⟩]

/-- Without filters the vector that lacks the number is given up, and the other is not concerned. -/
theorem count_faults_isolated :
    ∃ cases, ((Assembly.mk {} {} countMethod {}).assemble [lackingVector, countVector]).1 =
        .ok cases ∧
      cases.map (·.index) = List.range cases.length ∧
      ((Assembly.mk {} {} countMethod {}).ownWarnings none 0 lackingVector).filter Warning.isSkip =
        [.skippedCase "count" 0 (.missingObject "x")] := by
  have hlacking : ((Assembly.mk {} {} countMethod {}).draft none lackingVector).outcome =
      .error (.missingObject "x") := rfl
  obtain ⟨cases, hcases, hisolated⟩ := (faults_isolated (Assembly.mk {} {} countMethod {})
    [lackingVector, countVector]).2.2 none rfl
  refine ⟨cases, hcases, hisolated.index_eq, ?_⟩
  rw [ownWarnings, hlacking]
  rfl

end Assembly

end TestCase

end SymVec

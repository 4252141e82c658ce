import SymVec.Proofs.FaultIsolation

/-!
# Selection of cases

Filters only choose among the cases that would be assembled without them, and change how the chosen
ones are labelled. The choice is made for each vector by itself, between decoding its variables and
completing its case; both are done alike with and without filters.

* `TestCase.reachesTarget_iff` — the flag by the bytes of its object;
* `TestCase.Assembly.ownCase_eq_some_iff` — the parts of which a vector's own case is made;
* `TestCase.Assembly.ownCase_withFlags` — a vector's own case under the path flag and for failing
  tests;
* `TestCase.Assembly.exists_of_ownCase_withPredicate` — a vector's own case under a predicate;
* `TestCase.Assembly.filters_select` — the cases of a list of vectors under any filters.
-/

namespace SymVec.TestCase

open Traced

/-- Whether the path of a vector reached what was aimed at: it records the flag, and the flag
decodes to one. -/
def reachesTarget (v : TestVector) : Bool :=
  (v.contents? pathFlagName).any fun bytes =>
    (Decoder.primitiveView bytes .int 0).outcome.toOption.any fun view => view.literal = "1"

/-- An integer is stored in four bytes, and its literal has no suffix. -/
theorem outcome_primitiveView_int (bytes : Bytes) :
    (Decoder.primitiveView bytes .int 0).outcome =
      if 4 ≤ bytes.length then
        .ok (.primitive (toString (Word.toSigned (Bytes.word (bytes.take 4)) 32)))
      else .error (.outOfBounds 0 4 bytes.length) := by
  have hprimitive : CType.int.primitive? = some ⟨4, .integer, true⟩ := rfl
  have hsuffix : Literal.suffix CType.int.baseName = "" := rfl
  have hliteral : ∀ raw, Literal.scalar raw 32 ⟨4, .integer, true⟩ CType.int.baseName =
      toString (Word.toSigned raw 32) := by
    intro raw
    unfold Literal.scalar
    dsimp only
    rw [if_pos rfl, Literal.signed, hsuffix, if_neg fun h => h.2 rfl, String.append_empty]
  unfold Decoder.primitiveView
  rw [hprimitive]
  dsimp only
  -- the bytes are read from the start of the buffer, if there are four
  rw [outcome_bind, outcome_readBytes, Nat.zero_add, List.drop_zero]
  split
  · rw [← hliteral]
    rfl
  · rfl

/-- Only one is written as a one. -/
theorem eq_one_of_toString {n : Int} (h : toString n = "1") : n = 1 := by
  have hlist : (toString n).toList = ['1'] := congrArg String.toList h
  cases n with
  | ofNat m =>
    have hdigits : Nat.toDigits 10 m = ['1'] := by
      change (Nat.repr m).toList = ['1'] at hlist
      rwa [Nat.repr_eq_ofList_toDigits, String.toList_ofList] at hlist
    -- the digits are read back, so the number is the one that they write
    have hread : Nat.ofDigitChars 10 (Nat.toDigits 10 m) 0 = m := Nat.ofDigitChars_ten_toDigits
    rw [hdigits] at hread
    rw [← hread]
    rfl
  | negSucc m =>
    -- a negative number starts with a sign
    change ("-" ++ Nat.repr (m + 1)).toList = ['1'] at hlist
    rw [String.toList_append] at hlist
    cases hlist

theorem toString_eq_one_iff {n : Int} : toString n = "1" ↔ n = 1 := by
  refine ⟨eq_one_of_toString, fun h => ?_⟩
  rw [h]
  rfl

/-- The target is reached if the flag is recorded with four bytes that hold a one. -/
theorem reachesTarget_iff {v : TestVector} :
    reachesTarget v = true ↔ ∃ bytes, v.contents? pathFlagName = some bytes ∧ 4 ≤ bytes.length ∧
      Word.toSigned (Bytes.word (bytes.take 4)) 32 = 1 := by
  unfold reachesTarget
  cases v.contents? pathFlagName with
  | none => simp
  | some bytes =>
    rw [Option.any_some, outcome_primitiveView_int]
    by_cases hlength : 4 ≤ bytes.length
    · simp only [Option.some.injEq, exists_eq_left', hlength, true_and, if_true]
      rw [Except.toOption, Option.any_some, View.literal, decide_eq_true_iff, toString_eq_one_iff]
    · simp [hlength, Except.toOption]

variable {d : Decoder} {v : TestVector}

/-- A decoded flag tells whether the target was reached. -/
theorem pathFlag_eq_iff {pathFlag : Option String}
    (h : (flagLiteral d v pathFlagName).outcome = .ok pathFlag) :
    pathFlag = some "1" ↔ reachesTarget v = true := by
  have hkind : d.registry.kindOf .int = .primitive := rfl
  obtain ⟨flag, hflag, h⟩ := outcome_bind_eq_ok_iff.1 h
  cases h
  unfold named? at hflag
  rw [reachesTarget]
  -- without the flag neither says that the target was reached
  cases hcontents : v.contents? pathFlagName with
  | none =>
    rw [hcontents] at hflag
    cases hflag
    simp
  | some bytes =>
    rw [hcontents] at hflag
    obtain ⟨view, hview, hflag⟩ := outcome_bind_eq_ok_iff.1 hflag
    cases hflag
    rw [Decoder.decode, hkind] at hview
    dsimp only at hview
    rw [Option.any_some, hview]
    simp [Except.toOption]

namespace Assembly

variable {a : Assembly} {predicate : Option Predicate}

/-- The assembly with other filters. -/
def withFilters (a : Assembly) (filters : Filters) : Assembly := { a with filters }

/-- A predicate that can be made is the one of the filters. -/
theorem predicate?_withFilters {pathFlag forAssert : Bool} {texts : PredicateTexts}
    {p : Predicate} (h : Predicate.make texts.operator texts.expected texts.validation = .ok p) :
    (a.withFilters ⟨pathFlag, forAssert, some texts⟩).predicate? = .ok (some p) := by
  rw [predicate?, withFilters]
  dsimp only
  rw [h]
  rfl

/-! ### The parts of a case -/

/-- The flag of decoded variables is that of the vector. -/
theorem pathFlag_of_decodeVariables {returnType : CType} {vars : Variables}
    (h : (a.decodeVariables d v returnType).outcome = .ok vars) :
    vars.pathFlag = some "1" ↔ reachesTarget v = true :=
  pathFlag_eq_iff (decodes_of_decodeVariables h).pathFlag

/-- **Made case.** The case of decoded variables with a returned value, and with the references of
all that was decoded for it. Filters have no part in it but for the suite. -/
inductive Makes (a : Assembly) (returnType : CType) (v : TestVector) (vars : Variables)
    (returned : NamedValue) : TestCase → Prop
  | intro {g : ObjectGraph v} {c : TestCase} (carries : a.carriesValues returnType v = true)
      (graph : ObjectGraph.build v a.registry.pointerSize = .ok g)
      (decoded : (a.decodeVariables (a.decoder g.table) v returnType).outcome = .ok vars)
      (completed : (a.completeCase (a.decoder g.table) v g returnType vars returned).outcome =
        .ok c) :
      Makes a returnType v vars returned
        { c with
          references := (a.decodeVariables (a.decoder g.table) v returnType).references ++
            (a.completeCase (a.decoder g.table) v g returnType vars returned).references }

/-- The flag of a made case is that of its vector. -/
theorem Makes.pathFlag_iff {returnType : CType} {vars : Variables} {returned : NamedValue}
    {c : TestCase} (h : a.Makes returnType v vars returned c) :
    vars.pathFlag = some "1" ↔ reachesTarget v = true := by
  cases h with
  | intro _ _ decoded _ => exact pathFlag_of_decodeVariables decoded

/-- What the filters keep is completed. -/
theorem selectCase_eq {g : ObjectGraph v} {vars : Variables} {returned : NamedValue}
    (hflag : a.filters.pathFlag = true → vars.pathFlag = some "1")
    (hreturned : applyPredicate predicate vars.returned = .ok (some returned)) :
    a.selectCase d v g predicate vars =
      some <$> a.completeCase d v g (a.returnType predicate) vars returned := by
  have hkeep : ¬(a.filters.pathFlag && vars.pathFlag != some "1") = true := by
    intro hdrop
    obtain ⟨hon, hother⟩ := Bool.and_eq_true_iff.1 hdrop
    exact absurd (hflag hon) (by simpa using hother)
  rw [selectCase, if_neg hkeep, ofExcept_bind_of_ok hreturned]

/-- A case that is selected has passed the flag and the predicate. -/
theorem exists_of_selected {g : ObjectGraph v} {vars : Variables} {c : TestCase}
    (h : (a.selectCase d v g predicate vars).outcome = .ok (some c)) :
    (a.filters.pathFlag = true → vars.pathFlag = some "1") ∧
      ∃ returned, applyPredicate predicate vars.returned = .ok (some returned) := by
  unfold selectCase at h
  split at h
  · cases h
  · next hkeep =>
    obtain ⟨selected, hselected, h⟩ := outcome_bind_eq_ok_iff.1 h
    cases selected with
    | none => cases h
    | some returned => exact ⟨by simpa using hkeep, returned, hselected⟩

/-- A case that is drafted has values and a graph. -/
theorem exists_graph_of_draft {c : TestCase}
    (h : (a.draft predicate v).outcome = .ok (some c)) :
    a.carriesValues (a.returnType predicate) v = true ∧
      ∃ g, ObjectGraph.build v a.registry.pointerSize = .ok g := by
  unfold draft at h
  split at h
  · cases h
  · next hcarries =>
    obtain ⟨g, hg, -⟩ := outcome_bind_eq_ok_iff.1 h
    exact ⟨by simpa using hcarries, g, hg⟩

/-- The draft of a vector with values and a graph. -/
theorem draft_eq {g : ObjectGraph v}
    (hcarries : a.carriesValues (a.returnType predicate) v = true)
    (hg : ObjectGraph.build v a.registry.pointerSize = .ok g) :
    a.draft predicate v =
      (a.decodeVariables (a.decoder g.table) v (a.returnType predicate) >>= fun vars =>
        a.selectCase (a.decoder g.table) v g predicate vars) := by
  rw [draft, hcarries, if_neg (by decide), ofExcept_bind_of_ok hg]

/-- **Own cases.** A vector has a case of its own if one is made and the filters keep it. -/
theorem ownCase_eq_some_iff {c : TestCase} :
    a.ownCase predicate v = some c ↔
      ∃ vars returned, a.Makes (a.returnType predicate) v vars returned c ∧
        (a.filters.pathFlag = true → vars.pathFlag = some "1") ∧
        applyPredicate predicate vars.returned = .ok (some returned) := by
  constructor
  · intro h
    unfold ownCase at h
    split at h
    · next drafted hdrafted =>
      cases h
      -- a draft with a case has passed all stages, of which two report references
      obtain ⟨hcarries, g, hg⟩ := exists_graph_of_draft hdrafted
      rw [draft_eq hcarries hg] at hdrafted ⊢
      obtain ⟨vars, hvars, hselect⟩ := outcome_bind_eq_ok_iff.1 hdrafted
      obtain ⟨hflag, returned, hreturned⟩ := exists_of_selected hselect
      rw [selectCase_eq hflag hreturned] at hselect
      obtain ⟨completed, hcompleted, hsome⟩ := outcome_map_eq_ok_iff.1 hselect
      obtain rfl := Option.some.inj hsome
      refine ⟨vars, returned, ?_, hflag, hreturned⟩
      rw [references_bind_of_ok hvars, selectCase_eq hflag hreturned, references_map]
      exact Makes.intro hcarries hg hvars hcompleted
    · cases h
  · -- nothing stops the draft on its way to the made case
    rintro ⟨vars, returned, hmakes, hflag, hreturned⟩
    cases hmakes with
    | @intro g completed hcarries hg hvars hcompleted =>
      have hselect : (a.selectCase (a.decoder g.table) v g predicate vars).outcome =
          .ok (some completed) := by
        rw [selectCase_eq hflag hreturned]
        exact outcome_map_eq_ok_iff.2 ⟨completed, hcompleted, rfl⟩
      have hdraft : (a.draft predicate v).outcome = .ok (some completed) := by
        rw [draft_eq hcarries hg]
        exact outcome_bind_eq_ok_iff.2 ⟨vars, hvars, hselect⟩
      rw [ownCase, hdraft, draft_eq hcarries hg, references_bind_of_ok hvars,
        selectCase_eq hflag hreturned, references_map]

/-! ### Cases under other filters -/

/-- Completing a case under other filters changes its suite. -/
theorem completeCase_withFilters (filters : Filters) (g : ObjectGraph v) (returnType : CType)
    (vars : Variables) (returned : NamedValue) :
    (a.withFilters filters).completeCase d v g returnType vars returned =
      (fun c => { c with suite := (a.withFilters filters).suite v }) <$>
        a.completeCase d v g returnType vars returned := by
  simp only [completeCase, map_bind, map_pure]
  rfl

/-- Completing a case with another returned value changes what it returns. -/
theorem completeCase_returned (g : ObjectGraph v) (returnType : CType) (vars : Variables)
    (returned returned' : NamedValue) :
    a.completeCase d v g returnType vars returned' =
      (fun c => { c with returned := applyNullness returnType vars.notNull returned' }) <$>
        a.completeCase d v g returnType vars returned := by
  simp only [completeCase, map_bind, map_pure]

/-- A completed case returns the value that it was given, or null. -/
theorem returned_of_completeCase {g : ObjectGraph v} {returnType : CType} {vars : Variables}
    {returned : NamedValue} {c : TestCase}
    (h : (a.completeCase d v g returnType vars returned).outcome = .ok c) :
    c.returned = applyNullness returnType vars.notNull returned := by
  obtain ⟨lazyObjects, -, h⟩ := outcome_bind_eq_ok_iff.1 h
  obtain ⟨stubParameters, -, h⟩ := outcome_bind_eq_ok_iff.1 h
  cases h
  rfl

/-- **Relabelling.** Other filters make the same cases with another suite. -/
theorem makes_withFilters_iff {filters : Filters} {returnType : CType} {vars : Variables}
    {returned : NamedValue} {c : TestCase} :
    (a.withFilters filters).Makes returnType v vars returned c ↔
      ∃ c', a.Makes returnType v vars returned c' ∧
        c = { c' with suite := (a.withFilters filters).suite v } := by
  constructor
  · intro h
    cases h with
    | @intro g completed hcarries hg hvars hcompleted =>
      rw [completeCase_withFilters] at hcompleted
      obtain ⟨completed', hcompleted', rfl⟩ := outcome_map_eq_ok_iff.1 hcompleted
      refine ⟨_, Makes.intro hcarries hg hvars hcompleted', ?_⟩
      rw [completeCase_withFilters, references_map]
      rfl
  -- what is decoded before a case is completed does not ask for filters
  · rintro ⟨c', h, rfl⟩
    cases h with
    | @intro g completed hcarries hg hvars hcompleted =>
      have hcompleted' : ((a.withFilters filters).completeCase ((a.withFilters filters).decoder
          g.table) v g returnType vars returned).outcome =
            .ok { completed with suite := (a.withFilters filters).suite v } := by
        rw [completeCase_withFilters]
        exact outcome_map_eq_ok_iff.2 ⟨completed, hcompleted, rfl⟩
      have hmakes := Makes.intro (a := a.withFilters filters) hcarries hg hvars hcompleted'
      rw [completeCase_withFilters, references_map] at hmakes
      exact hmakes

/-- Another returned value makes the same case with another value returned. -/
theorem Makes.exists_returned {returnType : CType} {vars : Variables} {returned' : NamedValue}
    {c : TestCase} (h : a.Makes returnType v vars returned' c) (returned : NamedValue) :
    ∃ c', a.Makes returnType v vars returned c' ∧
      c'.returned = applyNullness returnType vars.notNull returned ∧
      c = { c' with returned := applyNullness returnType vars.notNull returned' } := by
  cases h with
  | @intro g completed hcarries hg hvars hcompleted =>
    rw [completeCase_returned g returnType vars returned returned'] at hcompleted
    obtain ⟨completed', hcompleted', rfl⟩ := outcome_map_eq_ok_iff.1 hcompleted
    have hreturned : completed'.returned = applyNullness returnType vars.notNull returned :=
      returned_of_completeCase hcompleted'
    refine ⟨_, Makes.intro hcarries hg hvars hcompleted', hreturned, ?_⟩
    rw [completeCase_returned g returnType vars returned returned', references_map]

/-! ### One vector -/

/-- Whether the path flag, if it is asked for, keeps the vector. -/
def isKept (pathFlag : Bool) (v : TestVector) : Bool := !pathFlag || reachesTarget v

/-- The suite of the vector's case: that of failing tests if they are asked for or it failed. -/
def suiteOf (forAssert : Bool) (v : TestVector) : Suite :=
  if v.status = .failed || forAssert then .error else .regression

/-- A vector's own case under the path flag and for failing tests: the one without filters, if it is
kept, with another suite. -/
theorem ownCase_withFlags (a : Assembly) (pathFlag forAssert : Bool) (v : TestVector) :
    (a.withFilters ⟨pathFlag, forAssert, none⟩).ownCase none v =
      (((a.withFilters {}).ownCase none v).filter fun _ => isKept pathFlag v).map
        fun c => { c with suite := suiteOf forAssert v } := by
  refine Option.ext fun c => ?_
  rw [ownCase_eq_some_iff, Option.map_eq_some_iff]
  constructor
  · rintro ⟨vars, returned, hmakes, hflag, hreturned⟩
    obtain ⟨c', hmakes', rfl⟩ := makes_withFilters_iff.1 hmakes
    -- a case that passed the flag comes from a vector that reached the target
    have hkept : isKept pathFlag v = true := by
      cases pathFlag with
      | false => rfl
      | true => exact hmakes.pathFlag_iff.1 (hflag rfl)
    have hown : (a.withFilters {}).ownCase none v =
        some { c' with suite := (a.withFilters {}).suite v } :=
      ownCase_eq_some_iff.2
        ⟨vars, returned, makes_withFilters_iff.2 ⟨c', hmakes', rfl⟩, nofun, hreturned⟩
    exact ⟨_, Option.filter_eq_some_iff.2 ⟨hown, hkept⟩, rfl⟩
  · rintro ⟨c₀, hc₀, rfl⟩
    obtain ⟨hown, hkept⟩ := Option.filter_eq_some_iff.1 hc₀
    obtain ⟨vars, returned, hmakes, -, hreturned⟩ := ownCase_eq_some_iff.1 hown
    obtain ⟨c', hmakes', rfl⟩ := makes_withFilters_iff.1 hmakes
    refine ⟨vars, returned, makes_withFilters_iff.2 ⟨c', hmakes', rfl⟩, fun hon => ?_, hreturned⟩
    -- the flag is asked for, so the vector is kept by it
    obtain rfl : pathFlag = true := hon
    exact hmakes.pathFlag_iff.2 hkept

/-- Nullness only changes the view of a returned value. -/
theorem applyNullness_view (returnType : CType) (notNull : Option String) (returned : NamedValue)
    (view : View) :
    applyNullness returnType notNull { returned with view } =
      { applyNullness returnType notNull returned with
        view := (applyNullness returnType notNull { returned with view }).view } := by
  unfold applyNullness
  split <;> rfl

/-- A predicate only changes the view of a returned value. -/
theorem exists_view_of_applyPredicate {returned selected : NamedValue}
    (h : applyPredicate predicate returned = .ok (some selected)) :
    ∃ view, selected = { returned with view } := by
  unfold applyPredicate at h
  cases predicate with
  | none =>
    cases h
    exact ⟨returned.view, rfl⟩
  | some p =>
    cases hholds : p.holds returned.view.literal with
    -- a predicate that fails makes no case
    | error e =>
      simp only [hholds] at h
      cases h
    | ok holds =>
      simp only [hholds, Except.map, Except.ok.injEq] at h
      split at h
      · cases h
      · -- the value is kept, or takes the literal that was expected
        split at h
        · cases h
          exact ⟨returned.view, rfl⟩
        · cases h
          exact ⟨_, rfl⟩

/-- A vector's own case under a predicate that compares no text: the one without the predicate, if
it is kept, with another view of the returned value. -/
theorem exists_of_ownCase_withPredicate {pathFlag forAssert : Bool} {texts : PredicateTexts}
    {p : Predicate} (htext : p.validation ≠ .string) {c : TestCase}
    (h : (a.withFilters ⟨pathFlag, forAssert, some texts⟩).ownCase (some p) v = some c) :
    ∃ c', (a.withFilters ⟨pathFlag, forAssert, none⟩).ownCase none v = some c' ∧
      c = { c' with returned := { c'.returned with view := c.returned.view } } := by
  -- the type of the result is not exchanged for that of strings
  have htype : (a.withFilters ⟨pathFlag, forAssert, some texts⟩).returnType (some p) =
      a.method.returnType := by
    rw [returnType]
    exact if_neg htext
  obtain ⟨vars, returned, hmakes, hflag, hreturned⟩ := ownCase_eq_some_iff.1 h
  rw [htype] at hmakes
  obtain ⟨c₀, hmakes₀, rfl⟩ := makes_withFilters_iff.1 hmakes
  -- the same case is made with the returned value as it was decoded
  obtain ⟨c₁, hmakes₁, hdecoded, rfl⟩ := hmakes₀.exists_returned vars.returned
  obtain ⟨view, rfl⟩ := exists_view_of_applyPredicate hreturned
  -- and it passes the flag as before
  refine ⟨{ c₁ with suite := (a.withFilters ⟨pathFlag, forAssert, none⟩).suite v },
    ownCase_eq_some_iff.2 ⟨vars, vars.returned, makes_withFilters_iff.2 ⟨c₁, hmakes₁, rfl⟩, hflag,
      rfl⟩, ?_⟩
  rw [hdecoded, ← applyNullness_view]
  rfl

/-! ### Lists of vectors -/

/-- **Own cases** of vectors, each with its vector. -/
def ownCases (a : Assembly) (predicate : Option Predicate) (vectors : List TestVector) :
    List (TestVector × TestCase) :=
  vectors.filterMap fun v => (a.ownCase predicate v).map fun c => (v, c)

theorem ownCases_cons_of_none {vectors : List TestVector} (h : a.ownCase predicate v = none) :
    a.ownCases predicate (v :: vectors) = a.ownCases predicate vectors := by
  rw [ownCases, List.filterMap_cons, h]
  rfl

theorem ownCases_cons_of_some {vectors : List TestVector} {c : TestCase}
    (h : a.ownCase predicate v = some c) :
    a.ownCases predicate (v :: vectors) = (v, c) :: a.ownCases predicate vectors := by
  rw [ownCases, List.filterMap_cons, h]
  rfl

/-- Without their vectors they are the cases that are assembled. -/
theorem map_ownCases (a : Assembly) (predicate : Option Predicate) (vectors : List TestVector) :
    (a.ownCases predicate vectors).map (·.2) = vectors.filterMap (a.ownCase predicate) := by
  rw [ownCases, List.map_filterMap]
  -- a case is paired with its vector, and the pair is then forgotten
  congr 1
  funext v
  rw [Option.map_map]
  exact Option.map_id'

/-- They come from the vectors in order, at most one from each. -/
theorem ownCases_sublist (a : Assembly) (predicate : Option Predicate)
    (vectors : List TestVector) : ((a.ownCases predicate vectors).map (·.1)).Sublist vectors := by
  induction vectors with
  | nil => exact List.Sublist.slnil
  | cons v rest ih =>
    cases hown : a.ownCase predicate v with
    | none =>
      rw [ownCases_cons_of_none hown]
      exact ih.cons v
    | some c =>
      rw [ownCases_cons_of_some hown]
      exact ih.cons_cons v

/-- Each is the own case of the vector that stands with it. -/
theorem ownCase_of_mem_ownCases {vectors : List TestVector} {x : TestVector × TestCase}
    (h : x ∈ a.ownCases predicate vectors) : a.ownCase predicate x.1 = some x.2 := by
  obtain ⟨v, -, hv⟩ := List.mem_filterMap.1 h
  obtain ⟨c, hc, rfl⟩ := Option.map_eq_some_iff.1 hv
  exact hc

/-- Where each vector's own case is that of another assembly, if it is kept, with changes, the own
cases are those of the kept vectors, with these changes. -/
theorem filterMap_ownCase_of {b : Assembly} {predicate' : Option Predicate}
    {keep : TestVector → Bool} {change : TestVector → TestCase → TestCase}
    (h : ∀ v, b.ownCase predicate' v =
      ((a.ownCase predicate v).filter fun _ => keep v).map (change v))
    (vectors : List TestVector) :
    vectors.filterMap (b.ownCase predicate') =
      ((a.ownCases predicate vectors).filter fun x => keep x.1).map fun x => change x.1 x.2 := by
  induction vectors with
  | nil => rfl
  | cons v rest ih =>
    rw [List.filterMap_cons, h]
    cases hown : a.ownCase predicate v with
    -- a vector without a case has none in the other assembly either
    | none =>
      rw [ownCases_cons_of_none hown]
      exact ih
    | some c =>
      rw [ownCases_cons_of_some hown]
      cases hkept : keep v with
      | false =>
        rw [List.filter_cons_of_neg (by simp [hkept])]
        exact ih
      | true =>
        rw [List.filter_cons_of_pos (by simp [hkept]), List.map_cons, ← ih]
        rfl

/-- The own cases under the path flag and for failing tests. -/
theorem filterMap_ownCase_withFlags (a : Assembly) (pathFlag forAssert : Bool)
    (vectors : List TestVector) :
    vectors.filterMap ((a.withFilters ⟨pathFlag, forAssert, none⟩).ownCase none) =
      (((a.withFilters {}).ownCases none vectors).filter fun x => isKept pathFlag x.1).map
        fun x => { x.2 with suite := suiteOf forAssert x.1 } :=
  filterMap_ownCase_of (ownCase_withFlags a pathFlag forAssert) vectors

/-- Cases that differ at most in their numbers and in the view of the returned value. -/
def SameBut (c c' : TestCase) : Prop :=
  c = { c' with index := c.index, returned := { c'.returned with view := c.returned.view } }

/-- The cases under a predicate come from some of those without it, in order. -/
theorem sublist_ownCase_withPredicate {pathFlag forAssert : Bool} {texts : PredicateTexts}
    {p : Predicate} (htext : p.validation ≠ .string) (vectors : List TestVector)
    (made made' : Nat) :
    List.SublistForall₂ SameBut
      (numbered made (vectors.filterMap
        ((a.withFilters ⟨pathFlag, forAssert, some texts⟩).ownCase (some p))))
      (numbered made' (vectors.filterMap
        ((a.withFilters ⟨pathFlag, forAssert, none⟩).ownCase none))) := by
  induction vectors generalizing made made' with
  | nil => exact List.SublistForall₂.nil
  | cons v rest ih =>
    rw [List.filterMap_cons, List.filterMap_cons]
    cases hselected : (a.withFilters ⟨pathFlag, forAssert, some texts⟩).ownCase (some p) v with
    | none =>
      cases (a.withFilters ⟨pathFlag, forAssert, none⟩).ownCase none v with
      | none => exact ih made made'
      -- a case that the predicate drops, or that fails under it
      | some c' => exact List.SublistForall₂.cons_right (ih made (made' + 1))
    | some c =>
      -- the predicate keeps a case that is made without it
      obtain ⟨c', hflagged, hsame⟩ := exists_of_ownCase_withPredicate htext hselected
      rw [hflagged]
      refine List.SublistForall₂.cons ?_ (ih (made + 1) (made' + 1))
      rw [SameBut, hsame]

/-- **Filters select and relabel.** There are cases of some of the vectors, each the case of its
vector alone, that are assembled without filters. Under the path flag those are kept whose vector
reached the target, all of them in the suite of failing tests if that is asked for. A predicate that
compares no text keeps some of these, in order. Kept cases change in nothing but their number, and
under a predicate in the view of the returned value. -/
theorem filters_select (a : Assembly) (pathFlag forAssert : Bool) (vectors : List TestVector) :
    ∃ (drafted : List (TestVector × TestCase)) (flagged : List TestCase),
      (drafted.map (·.1)).Sublist vectors ∧
      (∀ x ∈ drafted,
        ((a.withFilters {}).assemble [x.1]).1 = .ok [{ x.2 with index := 0 }]) ∧
      ((a.withFilters {}).assemble vectors).1 = .ok (numbered 0 (drafted.map (·.2))) ∧
      ((a.withFilters ⟨pathFlag, forAssert, none⟩).assemble vectors).1 = .ok flagged ∧
      flagged = numbered 0 ((drafted.filter fun x => isKept pathFlag x.1).map
        fun x => { x.2 with suite := suiteOf forAssert x.1 }) ∧
      ∀ (texts : PredicateTexts) (p : Predicate),
        Predicate.make texts.operator texts.expected texts.validation = .ok p →
          p.validation ≠ .string → ∃ selected,
            ((a.withFilters ⟨pathFlag, forAssert, some texts⟩).assemble vectors).1 =
              .ok selected ∧
            List.SublistForall₂ SameBut selected flagged := by
  -- under any filters the cases are the own cases, numbered in a row
  have hassemble : ∀ (filters : Filters) (predicate : Option Predicate) (xs : List TestVector),
      (a.withFilters filters).predicate? = .ok predicate →
        ((a.withFilters filters).assemble xs).1 =
          .ok (numbered 0 (xs.filterMap ((a.withFilters filters).ownCase predicate))) :=
    fun filters predicate xs h => congrArg Prod.fst (assemble_eq h xs)
  refine ⟨(a.withFilters {}).ownCases none vectors, _, ownCases_sublist _ _ _, fun x hx => ?_, ?_,
    hassemble ⟨pathFlag, forAssert, none⟩ none vectors rfl, ?_, fun texts p hmake htext => ?_⟩
  · rw [hassemble {} none [x.1] rfl, List.filterMap_cons, ownCase_of_mem_ownCases hx]
    rfl
  · rw [hassemble {} none vectors rfl, map_ownCases]
  · rw [filterMap_ownCase_withFlags]
  · have hpredicate : (a.withFilters ⟨pathFlag, forAssert, some texts⟩).predicate? =
        .ok (some p) := by
      rw [predicate?, withFilters]
      dsimp only
      rw [hmake]
      rfl
    exact ⟨_, hassemble _ _ vectors hpredicate, sublist_ownCase_withPredicate htext vectors 0 0⟩

/-- A function of one number that returns a number. -/
def stepMethod : Method where
  name := "step"
  parameters := [⟨"x", .int, none⟩]
  returnType := .int

/-- A vector that reached the target and returned four, and one that did not reach it. -/
def reachingVector : TestVector where
  objects := [⟨"x", [3, 0, 0, 0], [], 0, false⟩, ⟨resultName, [4, 0, 0, 0], [], 0, false⟩,
    ⟨pathFlagName, [1, 0, 0, 0], [], 0, false⟩]

/-- The flag of this one is zero. -/
def missingVector : TestVector where
  objects := [⟨"x", [5, 0, 0, 0], [], 0, false⟩, ⟨resultName, [6, 0, 0, 0], [], 0, false⟩,
    ⟨pathFlagName, [0, 0, 0, 0], [], 0, false⟩]

/-- Failing tests for results below five, of the paths that reached the target. -/
theorem step_filters_select :
    reachesTarget reachingVector = true ∧ reachesTarget missingVector = false ∧
      ∃ flagged selected,
        (((Assembly.mk {} {} stepMethod {}).withFilters ⟨true, true, none⟩).assemble
          [reachingVector, missingVector]).1 = .ok flagged ∧
        (((Assembly.mk {} {} stepMethod {}).withFilters
          ⟨true, true, some ⟨"<", "5", "int32"⟩⟩).assemble
          [reachingVector, missingVector]).1 = .ok selected ∧
        List.SublistForall₂ SameBut selected flagged := by
  have hmake : Predicate.make "<" "5" "int32" =
      .ok ⟨.less, "5", .signed .w32, .integer 5⟩ := by decide
  obtain ⟨drafted, flagged, -, -, -, hflagged, -, hpredicate⟩ :=
    filters_select (Assembly.mk {} {} stepMethod {}) true true [reachingVector, missingVector]
  obtain ⟨selected, hselected, hsame⟩ :=
    hpredicate ⟨"<", "5", "int32"⟩ _ hmake (by decide)
  have hreaching : reachesTarget reachingVector = true := by decide +kernel
  have hmissing : reachesTarget missingVector = false := by decide +kernel
  exact ⟨hreaching, hmissing, flagged, selected, hflagged, hselected, hsame⟩

end Assembly

end SymVec.TestCase

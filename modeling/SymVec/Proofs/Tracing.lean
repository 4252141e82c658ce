import Mathlib.Data.List.Forall2
import SymVec.Traced

/-!
# Decoding steps in a row

A sequence of decoding steps succeeds exactly if each of them does. A counted loop is such a
sequence. Steps that report nothing report nothing in a row.

* `Traced.outcome_mapM_eq_ok_iff` — when a sequence succeeds, and with what;
* `Traced.eachFrom_eq_mapM` — the counted loop as a sequence;
* `Traced.references_mapM_of_silent` — a sequence of silent steps is silent;
* `Traced.references_mapM_of_ok` — a sequence that succeeds reports what its steps report, in order;
* `Traced.mapM_of_ok` — a sequence of steps that are known to succeed;
* `Traced.exists_step_of_mem_references` — what a sequence reports is reported by one of its steps;
* `Traced.outcome_bind_congr`, `Traced.outcome_mapM_congr` — outcomes follow from outcomes;
* `Traced.mapM_congr` — sequences of equal steps are equal;
* `Traced.Matches` — two steps fail, or succeed with related results; so do steps in a row;
* `Traced.Agrees` — one step yields all that another yields; so do steps in a row;
* `Traced.Coincides` — where two steps succeed they have the same result;
* `Traced.Succeeds` — a step yields a result; so do steps in a row.
-/

namespace SymVec.Traced

variable {α β : Type}

/-- A step that succeeds reports first, and the next one after it. -/
theorem references_bind_of_ok {step : Traced α} {a : α} (h : step.outcome = .ok a)
    (next : α → Traced β) :
    (step >>= next).references = step.references ++ (next a).references := by
  rw [bind_of_ok h]

/-- A step that is followed by a silent one reports what it reports alone. -/
theorem references_bind_of_silent {step : Traced α} {next : α → Traced β}
    (h : ∀ a, (next a).references = []) : (step >>= next).references = step.references := by
  rw [references_bind]
  cases step.outcome with
  | error e => exact List.append_nil _
  | ok a =>
    change step.references ++ (next a).references = step.references
    rw [h a, List.append_nil]

@[simp] theorem references_map (f : α → β) (step : Traced α) :
    (f <$> step).references = step.references := by
  rw [map_eq_pure_bind]
  exact references_bind_of_silent fun _ => rfl

@[simp] theorem outcome_map_eq_ok_iff {f : α → β} {step : Traced α} {b : β} :
    (f <$> step).outcome = .ok b ↔ ∃ a, step.outcome = .ok a ∧ f a = b := by
  rw [map_eq_pure_bind, outcome_bind_eq_ok_iff]
  simp only [outcome_pure, Except.ok.injEq]

@[simp] theorem references_ofExcept (x : Except DecodeError α) : (ofExcept x).references = [] := rfl

@[simp] theorem references_ofLayout (x : Except LayoutError α) : (ofLayout x).references = [] := rfl

@[simp] theorem outcome_ofLayout_eq_ok_iff {x : Except LayoutError α} {a : α} :
    (ofLayout x).outcome = .ok a ↔ x = .ok a := by
  change x.mapError DecodeError.layout = .ok a ↔ x = .ok a
  cases x <;> simp [Except.mapError]

/-- A silent step that succeeds leaves its result to the next one. -/
theorem ofExcept_bind_of_ok {x : Except DecodeError α} {a : α} (h : x = .ok a)
    (next : α → Traced β) : (ofExcept x >>= next) = next a := by
  rw [h]
  exact pure_bind a next

theorem ofLayout_bind_of_ok {x : Except LayoutError α} {a : α} (h : x = .ok a)
    (next : α → Traced β) : (ofLayout x >>= next) = next a := by
  rw [h]
  exact pure_bind a next

@[simp] theorem references_fail (e : DecodeError) : (fail e : Traced α).references = [] := rfl

theorem outcome_fail_ne_ok (e : DecodeError) (a : α) : (fail e : Traced α).outcome ≠ .ok a := by
  intro h
  cases h

/-! ### Sequences -/

/-- A sequence succeeds exactly if each of its steps does, with the results in order. -/
theorem outcome_mapM_eq_ok_iff {f : α → Traced β} {xs : List α} {ys : List β} :
    (xs.mapM f).outcome = .ok ys ↔ List.Forall₂ (fun x y => (f x).outcome = .ok y) xs ys := by
  induction xs generalizing ys with
  | nil =>
    rw [List.mapM_nil, List.forall₂_nil_left_iff, outcome_pure, Except.ok.injEq, eq_comm]
  | cons x rest ih =>
    rw [List.mapM_cons, outcome_bind_eq_ok_iff, List.forall₂_cons_left_iff]
    constructor
    · -- the first step succeeds, the others do, and the results are put together
      rintro ⟨y, hy, h⟩
      obtain ⟨ys', hys', h⟩ := outcome_bind_eq_ok_iff.1 h
      rw [outcome_pure, Except.ok.injEq] at h
      exact ⟨y, ys', hy, ih.1 hys', h.symm⟩
    · rintro ⟨y, ys', hy, hys', rfl⟩
      exact ⟨y, hy, outcome_bind_eq_ok_iff.2 ⟨ys', ih.2 hys', rfl⟩⟩

/-- Each result of a sequence is that of one of its steps. -/
theorem exists_step_of_mem {f : α → Traced β} {xs : List α} {ys : List β}
    (h : (xs.mapM f).outcome = .ok ys) {y : β} (hy : y ∈ ys) :
    ∃ x ∈ xs, (f x).outcome = .ok y := by
  induction outcome_mapM_eq_ok_iff.1 h with
  | nil => cases hy
  | cons hfirst hrest ih =>
    rcases List.mem_cons.1 hy with rfl | hy
    · exact ⟨_, List.mem_cons_self, hfirst⟩
    · obtain ⟨x, hx, hstep⟩ := ih (outcome_mapM_eq_ok_iff.2 hrest) hy
      exact ⟨x, List.mem_cons_of_mem _ hx, hstep⟩

/-- Each step of a sequence that succeeds has its result among the results. -/
theorem exists_result_of_mem {f : α → Traced β} {xs : List α} {ys : List β}
    (h : (xs.mapM f).outcome = .ok ys) {x : α} (hx : x ∈ xs) :
    ∃ y ∈ ys, (f x).outcome = .ok y := by
  induction outcome_mapM_eq_ok_iff.1 h with
  | nil => cases hx
  | cons hfirst hrest ih =>
    rcases List.mem_cons.1 hx with rfl | hx
    · exact ⟨_, List.mem_cons_self, hfirst⟩
    · obtain ⟨y, hy, hstep⟩ := ih (outcome_mapM_eq_ok_iff.2 hrest) hx
      exact ⟨y, List.mem_cons_of_mem _ hy, hstep⟩

/-- A counted loop is a sequence. -/
theorem eachFrom_eq_mapM (round : Nat → Traced α) (first count : Nat) :
    eachFrom round first count = (List.range' first count).mapM round := by
  induction count generalizing first with
  | zero => rfl
  | succ count ih => rw [eachFrom_succ, ih, List.range'_succ, List.mapM_cons]

/-- Steps that report no reference report none in a row, whether they succeed or not. -/
theorem references_mapM_of_silent {f : α → Traced β} (h : ∀ x, (f x).references = [])
    (xs : List α) : (xs.mapM f).references = [] := by
  induction xs with
  | nil => rfl
  | cons x rest ih =>
    rw [List.mapM_cons, references_bind, h x]
    -- an error ends the sequence, and a result leaves the report to the others
    cases (f x).outcome with
    | error e => rfl
    | ok a =>
      rw [List.nil_append]
      exact (references_bind_of_silent fun _ => rfl).trans ih

/-- Steps without results that report no reference report none in a row. -/
theorem references_forM_of_silent {f : α → Traced Unit} (h : ∀ x, (f x).references = [])
    (xs : List α) : (xs.forM f).references = [] := by
  induction xs with
  | nil => rfl
  | cons x rest ih =>
    rw [List.forM_eq_forM, List.forM_cons, ← List.forM_eq_forM, references_bind, h x]
    cases (f x).outcome with
    | error e => rfl
    | ok a => exact ih

/-- A sequence that succeeds reports what its steps report, in order. -/
theorem references_mapM_of_ok {f : α → Traced β} {xs : List α} {ys : List β}
    (h : (xs.mapM f).outcome = .ok ys) :
    (xs.mapM f).references = xs.flatMap fun x => (f x).references := by
  induction xs generalizing ys with
  | nil => rfl
  | cons x rest ih =>
    rw [List.mapM_cons] at h ⊢
    -- the first step reports first, and putting the results together is silent
    obtain ⟨y, hy, h⟩ := outcome_bind_eq_ok_iff.1 h
    obtain ⟨ys', hys', -⟩ := outcome_bind_eq_ok_iff.1 h
    rw [references_bind_of_ok hy, references_bind_of_silent fun _ => rfl, ih hys',
      List.flatMap_cons]

/-- Steps that succeed do so in a row, with the results, references and warnings of all in order. -/
theorem mapM_of_ok {f : α → Traced β} {result : α → β} {refs : α → List Reference}
    {warns : α → List Warning} {xs : List α}
    (h : ∀ x ∈ xs, f x = ⟨.ok (result x), refs x, warns x⟩) :
    xs.mapM f = ⟨.ok (xs.map result), xs.flatMap refs, xs.flatMap warns⟩ := by
  induction xs with
  | nil => rfl
  | cons x rest ih =>
    have hfirst : f x = ⟨.ok (result x), refs x, warns x⟩ := h x List.mem_cons_self
    have hrest := ih fun x' hx' => h x' (List.mem_cons_of_mem x hx')
    rw [List.mapM_cons, hfirst, hrest, bind_of_ok rfl, bind_of_ok rfl, List.map_cons,
      List.flatMap_cons, List.flatMap_cons]
    simp only [outcome_pure, references_pure, warnings_pure, List.append_nil]

/-- What a step and the next one report is reported by the one or by the other. -/
theorem mem_references_bind {step : Traced α} {next : α → Traced β} {ref : Reference} :
    ref ∈ (step >>= next).references ↔
      ref ∈ step.references ∨ ∃ a, step.outcome = .ok a ∧ ref ∈ (next a).references := by
  rw [references_bind, List.mem_append]
  cases step.outcome <;> simp

/-- What a sequence reports is reported by one of its steps, whose result has the same place among
the results if the sequence succeeds. -/
theorem exists_step_of_mem_references {f : α → Traced β} {xs : List α} {ref : Reference}
    (h : ref ∈ (xs.mapM f).references) :
    ∃ (k : Nat) (x : α), xs[k]? = some x ∧ ref ∈ (f x).references ∧
      ∀ ys, (xs.mapM f).outcome = .ok ys →
        ∃ y : β, ys[k]? = some y ∧ (f x).outcome = .ok y := by
  induction xs with
  | nil => cases h
  | cons x rest ih =>
    rw [List.mapM_cons] at h ⊢
    rcases mem_references_bind.1 h with hfirst | ⟨y, -, h⟩
    · refine ⟨0, x, rfl, hfirst, fun ys hys => ?_⟩
      obtain ⟨y, hy, hys⟩ := outcome_bind_eq_ok_iff.1 hys
      obtain ⟨ys', -, hys⟩ := outcome_bind_eq_ok_iff.1 hys
      cases hys
      exact ⟨y, rfl, hy⟩
    · -- putting the results together is silent, so a later step reports it
      rw [references_bind_of_silent fun _ => rfl] at h
      obtain ⟨k, x', hx', href, hresult⟩ := ih h
      refine ⟨k + 1, x', hx', href, fun ys hys => ?_⟩
      obtain ⟨y', -, hys⟩ := outcome_bind_eq_ok_iff.1 hys
      obtain ⟨ys', hys', hys⟩ := outcome_bind_eq_ok_iff.1 hys
      cases hys
      exact hresult ys' hys'

/-! ### Equal outcomes -/

/-- Steps in a row have the same outcome if both parts do. -/
theorem outcome_bind_congr {step step' : Traced α} {next next' : α → Traced β}
    (h : step.outcome = step'.outcome)
    (hnext : ∀ a, (next a).outcome = (next' a).outcome) :
    (step >>= next).outcome = (step' >>= next').outcome := by
  rw [outcome_bind, outcome_bind, h, funext hnext]

/-- Sequences have the same outcome if their steps do. -/
theorem outcome_mapM_congr {f f' : α → Traced β} (h : ∀ x, (f x).outcome = (f' x).outcome)
    (xs : List α) : (xs.mapM f).outcome = (xs.mapM f').outcome := by
  induction xs with
  | nil => rfl
  | cons x rest ih =>
    rw [List.mapM_cons, List.mapM_cons]
    exact outcome_bind_congr (h x) fun y => outcome_bind_congr ih fun ys => rfl

/-- Sequences of equal steps are equal. -/
theorem mapM_congr {f f' : α → Traced β} {xs : List α} (h : ∀ x ∈ xs, f x = f' x) :
    xs.mapM f = xs.mapM f' := by
  induction xs with
  | nil => rfl
  | cons x rest ih =>
    rw [List.mapM_cons, List.mapM_cons, h x List.mem_cons_self,
      ih fun y hy => h y (List.mem_cons_of_mem x hy)]

/-! ### Matching results -/

/-- **Matching steps.** Both steps fail, or both succeed and their results are related. -/
def Matches (R : α → β → Prop) (step : Traced α) (other : Traced β) : Prop :=
  (∃ a b, step.outcome = .ok a ∧ other.outcome = .ok b ∧ R a b) ∨
    ∃ e e', step.outcome = .error e ∧ other.outcome = .error e'

theorem matches_of_ok {R : α → β → Prop} {step : Traced α} {other : Traced β} {a : α} {b : β}
    (ha : step.outcome = .ok a) (hb : other.outcome = .ok b) (h : R a b) :
    Matches R step other := Or.inl ⟨a, b, ha, hb, h⟩

theorem matches_of_error {R : α → β → Prop} {step : Traced α} {other : Traced β}
    {e e' : DecodeError} (he : step.outcome = .error e) (he' : other.outcome = .error e') :
    Matches R step other := Or.inr ⟨e, e', he, he'⟩

/-- The relation between results may be weakened. -/
theorem Matches.imp {R S : α → β → Prop} {step : Traced α} {other : Traced β}
    (h : Matches R step other) (himp : ∀ a b, R a b → S a b) : Matches S step other := by
  rcases h with ⟨a, b, ha, hb, hab⟩ | ⟨e, e', he, he'⟩
  · exact matches_of_ok ha hb (himp a b hab)
  · exact matches_of_error he he'

/-- Steps with the same outcome match, and their results are equal. -/
theorem matches_of_outcome_eq {step other : Traced α} (h : step.outcome = other.outcome) :
    Matches (· = ·) step other := by
  cases hstep : step.outcome with
  | ok a => exact matches_of_ok hstep (h ▸ hstep) rfl
  | error e => exact matches_of_error hstep (h ▸ hstep)

/-- Steps in a row match if the first ones do, and the second ones after related results. -/
theorem Matches.bind {γ δ : Type} {R : α → β → Prop} {S : γ → δ → Prop} {step : Traced α}
    {other : Traced β} {next : α → Traced γ} {next' : β → Traced δ} (h : Matches R step other)
    (hnext : ∀ a b, R a b → Matches S (next a) (next' b)) :
    Matches S (step >>= next) (other >>= next') := by
  rcases h with ⟨a, b, ha, hb, hab⟩ | ⟨e, e', he, he'⟩
  · rcases hnext a b hab with ⟨c, c', hc, hc', hcc'⟩ | ⟨e, e', he, he'⟩
    · refine matches_of_ok ?_ ?_ hcc'
      · exact outcome_bind_eq_ok_iff.2 ⟨a, ha, hc⟩
      · exact outcome_bind_eq_ok_iff.2 ⟨b, hb, hc'⟩
    · refine Or.inr ⟨e, e', ?_, ?_⟩
      · rw [bind_of_ok ha, he]
      · rw [bind_of_ok hb, he']
  · refine Or.inr ⟨e, e', ?_, ?_⟩
    · rw [bind_of_error he]
    · rw [bind_of_error he']

/-- Sequences match if their steps do, and their results are related one by one. -/
theorem matches_mapM {γ : Type} {R : β → γ → Prop} {f : α → Traced β} {f' : α → Traced γ}
    {xs : List α} (h : ∀ x ∈ xs, Matches R (f x) (f' x)) :
    Matches (List.Forall₂ R) (xs.mapM f) (xs.mapM f') := by
  induction xs with
  | nil => exact matches_of_ok rfl rfl .nil
  | cons x rest ih =>
    rw [List.mapM_cons, List.mapM_cons]
    refine (h x List.mem_cons_self).bind fun y y' hy => ?_
    refine (ih fun x' hx' => h x' (List.mem_cons_of_mem _ hx')).bind fun ys ys' hys => ?_
    exact matches_of_ok rfl rfl (.cons hy hys)

/-! ### Agreement -/

/-- **Agreement.** What the step yields, the other one yields too: if the step succeeds, then the
other has the same result and reports the same. -/
def Agrees (step other : Traced α) : Prop := ∀ a, step.outcome = .ok a → other = step

theorem Agrees.of_eq {step other : Traced α} (h : other = step) : Agrees step other :=
  fun _ _ => h

/-- A failure yields nothing that another step would have to yield. -/
theorem agrees_fail (e : DecodeError) (other : Traced α) : Agrees (fail e) other :=
  fun a h => absurd h (outcome_fail_ne_ok e a)

/-- Steps in a row agree if the first ones do, and the second ones after each result of the first.
-/
theorem Agrees.bind {step other : Traced α} {next next' : α → Traced β} (h : Agrees step other)
    (hnext : ∀ a, step.outcome = .ok a → Agrees (next a) (next' a)) :
    Agrees (step >>= next) (other >>= next') := by
  intro b hb
  -- the first steps have the same result, after which the second ones agree
  obtain ⟨a, ha, hb⟩ := outcome_bind_eq_ok_iff.1 hb
  rw [h a ha, bind_of_ok ha, bind_of_ok ha, hnext a ha b hb]

/-- Sequences agree if their steps do. -/
theorem Agrees.mapM {f f' : α → Traced β} {xs : List α} (h : ∀ x ∈ xs, Agrees (f x) (f' x)) :
    Agrees (xs.mapM f) (xs.mapM f') := by
  induction xs with
  | nil => exact Agrees.of_eq rfl
  | cons x rest ih =>
    rw [List.mapM_cons, List.mapM_cons]
    refine (h x List.mem_cons_self).bind fun y _ => ?_
    -- putting the results together is the same on both sides
    exact (ih fun x' hx' => h x' (List.mem_cons_of_mem _ hx')).bind fun _ _ => Agrees.of_eq rfl

/-! ### Coincidence -/

/-- **Coincidence.** Where both steps succeed, they have the same result. -/
def Coincides (step other : Traced α) : Prop :=
  ∀ a b, step.outcome = .ok a → other.outcome = .ok b → a = b

theorem coincides_of_outcome_eq {step other : Traced α} (h : step.outcome = other.outcome) :
    Coincides step other :=
  fun _ _ ha hb => Except.ok.inj (ha.symm.trans (h.trans hb))

theorem coincides_fail_left (e : DecodeError) (other : Traced α) : Coincides (fail e) other :=
  fun a _ ha _ => absurd ha (outcome_fail_ne_ok e a)

theorem coincides_fail_right (step : Traced α) (e : DecodeError) : Coincides step (fail e) :=
  fun _ b _ hb => absurd hb (outcome_fail_ne_ok e b)

/-- Steps in a row coincide if the first ones do, and the second ones after each result of these. -/
theorem Coincides.bind {step other : Traced α} {next next' : α → Traced β}
    (h : Coincides step other) (hnext : ∀ a, Coincides (next a) (next' a)) :
    Coincides (step >>= next) (other >>= next') := by
  intro b b' hb hb'
  obtain ⟨a, ha, hb⟩ := outcome_bind_eq_ok_iff.1 hb
  obtain ⟨a', ha', hb'⟩ := outcome_bind_eq_ok_iff.1 hb'
  -- the first steps succeed, and coincide
  obtain rfl : a = a' := h a a' ha ha'
  exact hnext a b b' hb hb'

/-! ### Success -/

/-- **Success.** The step has a result, whatever it is. -/
def Succeeds (step : Traced α) : Prop := ∃ a, step.outcome = .ok a

theorem succeeds_pure (a : α) : (pure a : Traced α).Succeeds := ⟨a, rfl⟩

/-- Steps in a row succeed if the first one does, and the second one after its result. -/
theorem Succeeds.bind {step : Traced α} {next : α → Traced β} (h : step.Succeeds)
    (hnext : ∀ a, step.outcome = .ok a → (next a).Succeeds) : (step >>= next).Succeeds := by
  obtain ⟨a, ha⟩ := h
  obtain ⟨b, hb⟩ := hnext a ha
  exact ⟨b, outcome_bind_eq_ok_iff.2 ⟨a, ha, hb⟩⟩

/-- A sequence succeeds if its steps do. -/
theorem succeeds_mapM {f : α → Traced β} {xs : List α} (h : ∀ x ∈ xs, (f x).Succeeds) :
    (xs.mapM f).Succeeds := by
  induction xs with
  | nil => exact succeeds_pure []
  | cons x rest ih =>
    rw [List.mapM_cons]
    refine (h x List.mem_cons_self).bind fun y _ => ?_
    have hrest : (rest.mapM f).Succeeds := ih fun x' hx' => h x' (List.mem_cons_of_mem _ hx')
    exact hrest.bind fun ys _ => succeeds_pure (y :: ys)

end SymVec.Traced

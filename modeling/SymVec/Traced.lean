import SymVec.DecodeError
import SymVec.Literal.Reference

/-!
# Decoding steps

Decoding yields a value or stops with an error. Either way it tells, in order, which pointers it met
that refer to named objects and what it found odd.

* `Traced.references_bind` — two steps in a row report what the first reports, and then, if the
  first succeeds, what the second reports;
* `Traced.outcome_bind_eq_ok_iff` — they succeed exactly if the first does and the second does with
  its result;
* `Traced.length_of_eachFrom` — a loop that succeeds has one result for each round.
-/

namespace SymVec

/-- A pointer that leads to a named object, so that it is to be set to the address of that
object. -/
structure Reference where
  /-- The path to the pointer, such as `node.next`. -/
  path : String
  /-- The name of the object it leads to. -/
  referenced : String
  /-- The cast of the address. -/
  cast : String
  deriving DecidableEq, Repr

/-- The address that is assigned to the pointer. -/
def Reference.literal (r : Reference) : String := s!"{r.cast} &{r.referenced}"

/-- What is odd about a test vector and yet no error. -/
inductive Warning where
  /-- A stored value is none of its enumeration. -/
  | valueOutOfRange (enumeration : String) (value : Int)
  /-- An object from which the search for lazy objects is to start does not exist. -/
  | missingRoot (root : String)
  /-- A test case was given up. -/
  | skippedCase (method : String) (vector : Nat) (error : DecodeError)
  /-- An object is named like the values of a stub that is not known. -/
  | unknownStub (method stub : String)
  deriving DecidableEq, Repr

/-- The text of a warning. -/
def Warning.message : Warning → String
  | valueOutOfRange _ _ => "enum value is out of range"
  | missingRoot _ => "root object is missing from test case"
  | skippedCase _ _ _ => "skipping test case"
  | unknownStub _ _ => "symbolic object does not belong to a known stub"

/-- The result of a decoding step, and what it reported on its way. -/
structure Traced (α : Type) where
  outcome : Except DecodeError α
  references : List Reference := []
  warnings : List Warning := []

namespace Traced

variable {α β : Type}

/-- Two results are equal if they have the same outcome and report the same in the same order. -/
@[ext]
theorem ext {s t : Traced α} (outcome : s.outcome = t.outcome)
    (references : s.references = t.references) (warnings : s.warnings = t.warnings) : s = t := by
  cases s
  cases t
  simp_all

/-- One step after another. After an error there is no second step. -/
def andThen (step : Traced α) (next : α → Traced β) : Traced β :=
  match step.outcome with
  | .error e => ⟨.error e, step.references, step.warnings⟩
  | .ok a =>
    ⟨(next a).outcome, step.references ++ (next a).references, step.warnings ++ (next a).warnings⟩

instance : Monad Traced where
  pure a := ⟨.ok a, [], []⟩
  bind := andThen

/-- The step that stops with an error. -/
def fail (e : DecodeError) : Traced α := ⟨.error e, [], []⟩

/-- The step that only reports a reference. -/
def refer (r : Reference) : Traced Unit := ⟨.ok (), [r], []⟩

/-- The step that only reports a warning. -/
def warn (w : Warning) : Traced Unit := ⟨.ok (), [], [w]⟩

/-- A silent step. -/
def ofExcept (x : Except DecodeError α) : Traced α := ⟨x, [], []⟩

/-- A silent step that asks about a layout. -/
def ofLayout (x : Except LayoutError α) : Traced α := ofExcept (x.mapError .layout)

/-! ### Laws -/

/-- A step that only has a value succeeds with it. -/
@[simp]
theorem outcome_pure (a : α) : (pure a : Traced α).outcome = .ok a := rfl

@[simp]
theorem references_pure (a : α) : (pure a : Traced α).references = [] := rfl

@[simp]
theorem warnings_pure (a : α) : (pure a : Traced α).warnings = [] := rfl

/-- After a step that succeeds, the next one is taken with its result. -/
theorem bind_of_ok {step : Traced α} {a : α} (h : step.outcome = .ok a) (next : α → Traced β) :
    step >>= next =
      ⟨(next a).outcome, step.references ++ (next a).references,
        step.warnings ++ (next a).warnings⟩ := by
  simp [Bind.bind, andThen, h]

/-- After a step that fails, the next one is not taken, and what was reported stays. -/
theorem bind_of_error {step : Traced α} {e : DecodeError} (h : step.outcome = .error e)
    (next : α → Traced β) :
    step >>= next = ⟨.error e, step.references, step.warnings⟩ := by
  simp [Bind.bind, andThen, h]

/-- Nothing follows a failure. -/
@[simp]
theorem fail_bind (e : DecodeError) (next : α → Traced β) : (fail e >>= next) = fail e := rfl

instance : LawfulMonad Traced := LawfulMonad.mk' Traced
  (by
    intro α step
    -- a step followed by nothing but its own value is that step
    cases h : step.outcome <;> apply ext <;> simp [Functor.map, andThen, h])
  (by
    intro α β a next
    apply ext <;> simp [Bind.bind, Pure.pure, andThen])
  (by
    intro α β γ step next last
    -- three steps: whichever fails first ends both groupings with the same reports
    cases h : step.outcome with
    | error e => apply ext <;> simp [Bind.bind, andThen, h]
    | ok a =>
      cases h' : (next a).outcome <;> apply ext <;> simp [Bind.bind, andThen, h, h'])

/-- Two steps in a row report the references of the first and then those of the second. -/
theorem references_bind {step : Traced α} (next : α → Traced β) :
    (step >>= next).references =
      step.references ++
        match step.outcome with
        | .ok a => (next a).references
        | .error _ => [] := by
  cases h : step.outcome <;> simp [Bind.bind, andThen, h]

/-- The outcome of two steps in a row depends on their outcomes alone. -/
theorem outcome_bind {step : Traced α} (next : α → Traced β) :
    (step >>= next).outcome = step.outcome.bind fun a => (next a).outcome := by
  cases h : step.outcome <;> simp [Bind.bind, andThen, Except.bind, h]

/-- Two steps succeed exactly if the first does and the second does with its result. -/
theorem outcome_bind_eq_ok_iff {step : Traced α} {next : α → Traced β} {b : β} :
    (step >>= next).outcome = .ok b ↔
      ∃ a, step.outcome = .ok a ∧ (next a).outcome = .ok b := by
  rw [outcome_bind]
  cases h : step.outcome <;> simp [Except.bind]

/-! ### Loops -/

/-- **Loop.** The results of `round` for `count` numbers from `first` on, in order. -/
def eachFrom (round : Nat → Traced α) (first : Nat) : (count : Nat) → Traced (List α)
  | 0 => pure []
  | count + 1 => do
    let a ← round first
    let rest ← eachFrom round (first + 1) count
    pure (a :: rest)

@[simp]
theorem eachFrom_zero (round : Nat → Traced α) (first : Nat) : eachFrom round first 0 = pure [] :=
  rfl

/-- One round, and then the others. -/
theorem eachFrom_succ (round : Nat → Traced α) (first count : Nat) :
    eachFrom round first (count + 1) =
      round first >>= fun a => eachFrom round (first + 1) count >>= fun rest => pure (a :: rest) :=
  rfl

/-- A loop that succeeds has one result for each round. -/
theorem length_of_eachFrom {round : Nat → Traced α} {first count : Nat} {results : List α}
    (h : (eachFrom round first count).outcome = .ok results) : results.length = count := by
  induction count generalizing first results with
  | zero => simp_all
  -- the result of the first round stands before those of the others
  | succ count ih =>
    rw [eachFrom_succ, outcome_bind_eq_ok_iff] at h
    obtain ⟨a, -, h⟩ := h
    obtain ⟨rest, hrest, h⟩ := outcome_bind_eq_ok_iff.1 h
    simp only [outcome_pure, Except.ok.injEq] at h
    simp [← h, ih hrest]

end Traced

end SymVec

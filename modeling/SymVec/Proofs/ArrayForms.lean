import SymVec.CType.Basic

/-!
# Array forms

The array form of a type tells how large a buffer for it has to be: each pointer that has an assumed
length becomes an array of that length. Nothing else about the type changes. Levels stay where they
are, and an array keeps its own length, with one exception. A type whose only level is an array has
a single length just as a single pointer has, and is counted as one: its own length is lost.

* `CType.getElem?_arrayLengths` — which levels have an assumed length;
* `CType.getElem?_replacePointers` — what becomes of one level;
* `CType.getElem?_levels_arrayForm` — the levels of an array form, one by one;
* `CType.pointers_counted` — an array form, level by level;
* `CType.exists_recounted_array` — an array that loses its length.
-/

namespace SymVec.CType

variable {t : CType} {usage : Usage}

/-! ### Assumed lengths -/

/-- The place of the first pointer, or the number of levels if there is none. -/
def firstPointer (levels : List Level) : Nat := levels.findIdx (· = .pointer)

/-- The levels that are counted in lazy usage are those up to the place of the first pointer. -/
theorem throughFirstPointer_eq_take (levels : List Level) :
    throughFirstPointer levels = levels.take (firstPointer levels + 1) := by
  induction levels with
  | nil => rfl
  | cons level rest ih =>
    cases level with
    | pointer => rfl
    | array n =>
      have hfirst : firstPointer (.array n :: rest) = firstPointer rest + 1 := by
        simp [firstPointer, List.findIdx_cons]
      rw [throughFirstPointer, ih, hfirst, List.take_succ_cons]

/-- **Assumed lengths by level.** In lazy usage the levels behind the first pointer have none. -/
theorem getElem?_arrayLengths (t : CType) (usage : Usage) (i : Nat) :
    (t.arrayLengths usage)[i]? =
      if usage = .lazy ∧ firstPointer t.levels < i then none
      else t.levels[i]?.map (t.levelLength usage) := by
  unfold arrayLengths
  dsimp only
  rw [List.getElem?_map]
  -- only in lazy usage is the list of levels cut short
  by_cases hlazy : usage = .lazy
  · rw [if_pos hlazy, throughFirstPointer_eq_take, List.getElem?_take]
    by_cases hbehind : firstPointer t.levels < i
    · rw [if_neg (by omega), if_pos ⟨hlazy, hbehind⟩, Option.map_none]
    · rw [if_pos (by omega), if_neg fun h => hbehind h.2]
  · rw [if_neg hlazy, if_neg fun h => hlazy h.1]

/-- No pointer lies before the first one. -/
theorem firstPointer_le_iff {levels : List Level} {i : Nat} (h : levels[i]? = some .pointer) :
    i ≤ firstPointer levels ↔ ∀ j < i, levels[j]? ≠ some .pointer := by
  obtain ⟨hi, hget⟩ := List.getElem?_eq_some_iff.1 h
  constructor
  · -- a pointer before the first one contradicts the search
    intro hle j hj hpointer
    obtain ⟨hj', hget'⟩ := List.getElem?_eq_some_iff.1 hpointer
    have hother := List.not_of_lt_findIdx (Nat.lt_of_lt_of_le hj hle)
    exact absurd hget' (of_decide_eq_false hother)
  · refine fun hbefore => Nat.le_of_not_lt fun hlt => ?_
    -- the first pointer would lie before this one
    have hfirst : firstPointer levels < levels.length := Nat.lt_trans hlt hi
    have hpointer : levels[firstPointer levels] = .pointer :=
      of_decide_eq_true (List.findIdx_getElem (w := hfirst))
    exact hbefore _ hlt (List.getElem?_eq_some_iff.2 ⟨hfirst, hpointer⟩)

/-! ### Levels of an array form -/

/-- **Replaced level.** What a level with that assumed length becomes. -/
def replaced : Level → Option Nat → Level
  | .pointer, some n => .array n
  | level, _ => level

/-- Without lengths nothing is replaced. -/
theorem replacePointers_nil (levels : List Level) :
    arrayForm.replacePointers levels [] = levels := by
  cases levels with
  | nil => rfl
  | cons level rest => cases level <;> rfl

/-- Each level is replaced by the length at its own place. -/
theorem getElem?_replacePointers (levels : List Level) (lengths : List Nat) (i : Nat) :
    (arrayForm.replacePointers levels lengths)[i]? =
      levels[i]?.map fun level => replaced level lengths[i]? := by
  induction levels generalizing lengths i with
  | nil => cases lengths <;> rfl
  | cons level rest ih =>
    cases lengths with
    | nil =>
      -- in lazy usage the lengths end before the levels
      cases level <;> simp [replacePointers_nil, replaced]
    | cons n lengths =>
      cases level <;> cases i <;> simp [arrayForm.replacePointers, replaced, ih]

/-- Where only one level has a length and this is not a lone array, it is a pointer that counts as a
single one. -/
theorem pointer_of_arrayLengths_eq {level : Level} {rest : List Level} {n : Nat}
    (hlone : ∀ m, t.levels ≠ [.array m]) (hlevels : t.levels = level :: rest)
    (hlengths : t.arrayLengths usage = [n]) : level = .pointer ∧ n = usage.singleLength := by
  -- the first level has this length, and the next one has none
  have hhead := getElem?_arrayLengths t usage 0
  rw [hlengths, hlevels, if_neg fun h => Nat.not_lt_zero _ h.2] at hhead
  obtain rfl : n = t.levelLength usage level := Option.some.inj hhead
  have hnext := getElem?_arrayLengths t usage 1
  rw [hlengths, hlevels] at hnext
  cases level with
  | array m =>
    -- a second level would have a length, too
    cases rest with
    | nil => exact absurd hlevels (hlone m)
    | cons second rest =>
      have hbehind : ¬(usage = .lazy ∧ firstPointer (.array m :: second :: rest) < 1) := by
        simp [firstPointer, List.findIdx_cons]
      rw [if_neg hbehind] at hnext
      cases hnext
  | pointer =>
    refine ⟨rfl, ?_⟩
    rw [levelLength]
    split
    · rfl
    · next hlong =>
      -- there are more levels, so the search for pointers has ended with this one
      cases usage with
      | «lazy» => rfl
      | parameter | result | knownSize _ =>
        cases rest with
        | nil => exact absurd (by rw [hlevels]; exact Nat.le_refl 1) hlong
        | cons second rest => cases hnext

/-- **Levels of an array form.** Each pointer that has a length is replaced, unless an array is the
only level. -/
theorem levels_arrayForm (hjust : t.isJustPointer = false) (hlone : ∀ n, t.levels ≠ [.array n]) :
    (t.arrayForm usage).levels =
      arrayForm.replacePointers t.levels (t.arrayLengths usage) := by
  unfold arrayForm
  rw [if_neg (Bool.eq_false_iff.1 hjust)]
  split
  · next n level rest hlengths hlevels =>
    -- the branch for a single length: it is a pointer, and nothing else is replaced
    obtain ⟨rfl, rfl⟩ := pointer_of_arrayLengths_eq hlone hlevels hlengths
    rw [hlevels, hlengths, arrayForm.replacePointers, replacePointers_nil]
  · rfl

/-- The only array counts as a single pointer. -/
theorem levels_arrayForm_of_lone {n : Nat} (h : t.levels = [.array n]) :
    (t.arrayForm usage).levels = [.array usage.singleLength] := by
  have hjust : t.isJustPointer = false := by simp [isJustPointer, isObjectPointer, h]
  have hlengths : t.arrayLengths usage = [n] := by
    unfold arrayLengths
    rw [h]
    cases usage <;> rfl
  unfold arrayForm
  rw [if_neg (Bool.eq_false_iff.1 hjust), hlengths, h]

/-- A level of a type with a single level is all that there is. -/
theorem levels_eq_of_dimension_one {i : Nat} {level : Level} (hone : t.dimension = 1)
    (h : t.levels[i]? = some level) : t.levels = [level] := by
  obtain ⟨only, hlevels⟩ := List.length_eq_one_iff.1 hone
  have hmem : level ∈ [only] := hlevels ▸ List.mem_of_getElem? h
  rw [hlevels, List.mem_singleton.1 hmem]

/-! ### Level by level -/

/-- What a level with that assumed length is in the array form. -/
def formLevel (t : CType) (usage : Usage) : Level → Option Nat → Level
  | .array n, _ => .array (if t.dimension = 1 then usage.singleLength else n)
  | .pointer, length => replaced .pointer length

/-- **Levels of an array form**, one by one. -/
theorem getElem?_levels_arrayForm (hjust : t.isJustPointer = false) (usage : Usage) (i : Nat) :
    (t.arrayForm usage).levels[i]? =
      t.levels[i]?.map fun level => formLevel t usage level (t.arrayLengths usage)[i]? := by
  by_cases hlone : ∃ n, t.levels = [.array n]
  · obtain ⟨n, hlone⟩ := hlone
    have hone : t.dimension = 1 := congrArg List.length hlone
    rw [levels_arrayForm_of_lone hlone, hlone]
    cases i with
    | zero => simp [formLevel, hone]
    | succ i => rfl
  · -- the short form for a single length does what the general one does
    rw [levels_arrayForm hjust fun n h => hlone ⟨n, h⟩, getElem?_replacePointers]
    cases hlevel : t.levels[i]? with
    | none => rfl
    | some level =>
      cases level with
      | pointer => rfl
      | array n =>
        -- an array beside other levels keeps its length
        have hmore : t.dimension ≠ 1 := fun hone =>
          hlone ⟨n, levels_eq_of_dimension_one hone hlevel⟩
        simp [formLevel, replaced, hmore]

/-- No level is added or lost. -/
theorem length_levels_arrayForm (hjust : t.isJustPointer = false) (usage : Usage) :
    (t.arrayForm usage).levels.length = t.levels.length := by
  -- both lists end at the same place
  have hnone : ∀ i, (t.arrayForm usage).levels[i]? = none ↔ t.levels[i]? = none := fun i => by
    rw [getElem?_levels_arrayForm hjust, Option.map_eq_none_iff]
  simp only [List.getElem?_eq_none_iff] at hnone
  exact Nat.le_antisymm ((hnone _).2 (Nat.le_refl _)) ((hnone _).1 (Nat.le_refl _))

/-- **Counted pointers.** An array form beside its type, level by level. -/
structure CountsPointers (t : CType) (usage : Usage) (form : CType) : Prop where
  name : form.name = t.name
  isFunction : form.isFunction = t.isFunction
  maybeArray : form.maybeArray = t.maybeArray
  length : form.levels.length = t.levels.length
  /-- An array keeps its length, unless it is the only level. -/
  array (i n : Nat) : t.levels[i]? = some (.array n) →
    form.levels[i]? = some (.array (if t.dimension = 1 then usage.singleLength else n))
  /-- A pointer with an assumed length becomes an array of this length. -/
  pointer (i n : Nat) : t.levels[i]? = some .pointer → (t.arrayLengths usage)[i]? = some n →
    form.levels[i]? = some (.array n)
  /-- A pointer without an assumed length stays. -/
  uncounted (i : Nat) : t.levels[i]? = some .pointer → (t.arrayLengths usage)[i]? = none →
    form.levels[i]? = some .pointer
  /-- All pointers have assumed lengths, but in lazy usage only the first one. -/
  isCounted (i : Nat) : t.levels[i]? = some .pointer →
    ((t.arrayLengths usage)[i]?.isSome ↔
      (usage = .lazy → ∀ j < i, t.levels[j]? ≠ some .pointer))

/-- All pointers have assumed lengths, but in lazy usage only the first one. -/
theorem isSome_arrayLengths_iff {i : Nat} (h : t.levels[i]? = some .pointer) :
    (t.arrayLengths usage)[i]?.isSome ↔
      (usage = .lazy → ∀ j < i, t.levels[j]? ≠ some .pointer) := by
  rw [getElem?_arrayLengths, ← firstPointer_le_iff h]
  by_cases hlazy : usage = .lazy
  · by_cases hbehind : firstPointer t.levels < i
    · simp [hlazy, hbehind]
    · simp [hlazy, hbehind, h, Nat.le_of_not_lt hbehind]
  · simp [hlazy, h]

/-- An array form differs from its type in the levels only. -/
theorem exists_arrayForm_eq (hjust : t.isJustPointer = false) (usage : Usage) :
    ∃ levels, t.arrayForm usage = { t with levels } := by
  unfold arrayForm
  rw [if_neg (Bool.eq_false_iff.1 hjust)]
  split <;> exact ⟨_, rfl⟩

/-- **Array forms** replace pointers by arrays of the lengths that these are taken to have, and
change nothing else but the length of an array that is the only level. -/
theorem pointers_counted (hjust : t.isJustPointer = false) (usage : Usage) :
    t.CountsPointers usage (t.arrayForm usage) := by
  obtain ⟨levels, hform⟩ := exists_arrayForm_eq hjust usage
  refine ⟨by rw [hform], by rw [hform], by rw [hform], length_levels_arrayForm hjust usage,
    fun i n hi => ?_, fun i n hi hn => ?_, fun i hi hn => ?_,
    fun i hi => isSome_arrayLengths_iff hi⟩
  · rw [getElem?_levels_arrayForm hjust, hi]
    rfl
  · rw [getElem?_levels_arrayForm hjust, hi, hn]
    rfl
  · rw [getElem?_levels_arrayForm hjust, hi, hn]
    rfl

/-- An array of three pointers to pointers. For an object that was found by following pointers, the
first pointer behind the array is counted and the second is not. -/
theorem lazy_pointers_counted :
    (CType.int.pointer.pointer.array 3).isJustPointer = false ∧
    ((CType.int.pointer.pointer.array 3).arrayForm .lazy).levels[0]? = some (.array 3) ∧
    ((CType.int.pointer.pointer.array 3).arrayForm .lazy).levels[1]? = some (.array 1) ∧
    ((CType.int.pointer.pointer.array 3).arrayForm .lazy).levels[2]? = some .pointer := by
  have hjust : (CType.int.pointer.pointer.array 3).isJustPointer = false := by decide
  have hcounted := pointers_counted hjust .lazy
  exact ⟨hjust, hcounted.array 0 3 rfl, hcounted.pointer 1 1 rfl rfl, hcounted.uncounted 2 rfl rfl⟩

/-- **A recounted array.** An array of three integers is no pointer, and its array form is an array
of ten. -/
theorem exists_recounted_array :
    (CType.int.array 3).isJustPointer = false ∧
    (CType.int.array 3).levels[0]? = some (.array 3) ∧
    ((CType.int.array 3).arrayForm .parameter).levels[0]? = some (.array 10) ∧
    ((CType.int.array 3).arrayForm .parameter).levels[0]? ≠ some (.array 3) := by
  decide

end SymVec.CType

/-!
# Fixed beginnings and endings

Names carry their role in a fixed beginning (`const `, `struct `) or ending (`_symbolic`).

* `Text.after?_eq_some_iff`, `Text.before?_eq_some_iff` — cutting undoes appending, and nothing
  else;
* `Text.dropEndings_append` — an ending that stands there once is what is cut.
-/

namespace SymVec.Text

/-- What follows `start` among characters that begin with it. -/
def rest? : (start text : List Char) → Option (List Char)
  | [], text => some text
  | _ :: _, [] => none
  | c :: start, d :: text => if c = d then rest? start text else none

/-- What follows `start` in a text that begins with it. -/
def after? (start text : String) : Option String :=
  (rest? start.toList text.toList).map String.ofList

/-- What precedes `ending` in a text that ends with it. -/
def before? (ending text : String) : Option String :=
  (rest? ending.toList.reverse text.toList.reverse).map fun cs => String.ofList cs.reverse

/-- Something follows `start` exactly in the texts that are made by putting it behind `start`. -/
theorem rest?_eq_some_iff {start text rest : List Char} :
    rest? start text = some rest ↔ text = start ++ rest := by
  fun_induction rest? start text with
  | case1 text => simp [eq_comm]
  | case2 => simp
  | case3 c start text ih => simpa using ih
  | case4 c start d text h => simp [Ne.symm h]

/-- The texts that begin with `start`, each with what follows it. -/
theorem after?_eq_some_iff {start text rest : String} :
    after? start text = some rest ↔ text = start ++ rest := by
  simp only [after?, Option.map_eq_some_iff, rest?_eq_some_iff]
  constructor
  · rintro ⟨chars, h, rfl⟩
    apply String.toList_injective
    simpa using h
  · rintro rfl
    exact ⟨rest.toList, by simp, by simp⟩

/-- The texts that end with `ending`, each with what precedes it. -/
theorem before?_eq_some_iff {ending text rest : String} :
    before? ending text = some rest ↔ text = rest ++ ending := by
  simp only [before?, Option.map_eq_some_iff, rest?_eq_some_iff]
  constructor
  · rintro ⟨chars, h, rfl⟩
    apply String.toList_injective
    -- the characters are compared from the end, so the equation is read backwards
    have := congrArg List.reverse h
    simpa using this
  · rintro rfl
    exact ⟨rest.toList.reverse, by simp, by simp⟩

/-! ### Repeated endings -/

/-- The text without `start` at its beginning, as often as it stands there in a row. -/
def dropStarts (start text : List Char) : List Char :=
  if _h : start = [] then text
  else
    match _hrest : rest? start text with
    | some rest => dropStarts start rest
    | none => text
termination_by text.length
decreasing_by
  -- what is cut has a character, so what is left is shorter
  have hlength := congrArg List.length (rest?_eq_some_iff.1 _hrest)
  have := List.length_pos_iff.2 _h
  rw [List.length_append] at hlength
  omega

/-- The text without `ending` at its end, as often as it stands there in a row. What is cut is whole
endings, so a part of one may be left. -/
def dropEndings (ending text : List Char) : List Char :=
  (dropStarts ending.reverse text.reverse).reverse

/-- One round of cutting. -/
theorem dropStarts_append {start : List Char} (hne : start ≠ []) (text : List Char) :
    dropStarts start (start ++ text) = dropStarts start text := by
  have hrest : rest? start (start ++ text) = some text := rest?_eq_some_iff.2 rfl
  rw [dropStarts, dif_neg hne]
  split
  · next rest h =>
    rw [hrest] at h
    rw [Option.some.inj h]
  · next h =>
    rw [hrest] at h
    cases h

/-- Nothing is cut from a text that does not begin with `start`. -/
theorem dropStarts_eq_self {start text : List Char} (h : ¬start <+: text) :
    dropStarts start text = text := by
  rw [dropStarts]
  split
  · rfl
  · split
    · next rest hrest => exact absurd ⟨rest, (rest?_eq_some_iff.1 hrest).symm⟩ h
    · rfl

/-- Nothing is cut from a text that does not end with `ending`. -/
theorem dropEndings_eq_self {ending text : List Char} (h : ¬ending <:+ text) :
    dropEndings ending text = text := by
  rw [dropEndings, dropStarts_eq_self (mt List.reverse_prefix.1 h), List.reverse_reverse]

/-- An ending behind a text that does not itself end so is exactly what is cut. -/
theorem dropEndings_append {ending text : List Char} (hne : ending ≠ []) (h : ¬ending <:+ text) :
    dropEndings ending (text ++ ending) = text := by
  have hreverse : ending.reverse ≠ [] := mt List.reverse_eq_nil_iff.1 hne
  rw [dropEndings, List.reverse_append, dropStarts_append hreverse,
    dropStarts_eq_self (mt List.reverse_prefix.1 h), List.reverse_reverse]

end SymVec.Text

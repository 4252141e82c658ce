/-!
# Blank characters

Surrounding space is what the Unicode property `White_Space` holds of: 25 characters, of which ASCII
has six.

* `Text.dropEndWhile_append` — a run at the end of a text is exactly what is cut;
* `Text.trim_append_blanks` — blanks around a text whose ends are not blank are exactly what is cut.
-/

namespace SymVec.Text

/-- **Blank.** The characters of the Unicode property `White_Space`. -/
def isBlank (c : Char) : Bool :=
  let n := c.toNat
  (9 ≤ n && n ≤ 13) || n = 0x20 || n = 0x85 || n = 0xA0 || n = 0x1680 ||
    (0x2000 ≤ n && n ≤ 0x200A) || n = 0x2028 || n = 0x2029 || n = 0x202F || n = 0x205F ||
    n = 0x3000

/-- The text without the longest run of blanks at its start. -/
def trimStart (cs : List Char) : List Char :=
  cs.dropWhile isBlank

/-- The text without the longest run at its end of characters that satisfy `p`. -/
def dropEndWhile (p : Char → Bool) (cs : List Char) : List Char :=
  (cs.reverse.dropWhile p).reverse

/-- The text without the blanks at its two ends. -/
def trim (cs : List Char) : List Char :=
  dropEndWhile isBlank (trimStart cs)

/-- A run of characters that satisfy `p`, after a text whose last character does not, is all that
`dropEndWhile p` removes. -/
theorem dropEndWhile_append {p : Char → Bool} {cs tail : List Char}
    (htail : ∀ c ∈ tail, p c = true) (hlast : ∀ c ∈ cs.getLast?, p c = false) :
    dropEndWhile p (cs ++ tail) = cs := by
  -- a leading run is dropped whole, and what follows is looked at on its own
  have drop_all : ∀ (run rest : List Char), (∀ c ∈ run, p c = true) →
      (run ++ rest).dropWhile p = rest.dropWhile p := by
    intro run
    induction run with
    | nil => simp
    | cons c run ih =>
      intro rest h
      simp only [List.cons_append, List.dropWhile_cons, h c (by simp), if_true]
      exact ih rest (fun d hd => h d (by simp [hd]))
  unfold dropEndWhile
  rw [List.reverse_append, drop_all tail.reverse cs.reverse (by simpa using htail)]
  cases hcs : cs.reverse with
  | nil => simpa using congrArg List.reverse hcs
  -- the last character of the text is the first one that stays
  | cons d ds =>
    have hd : cs.getLast? = some d := by
      rw [← List.head?_reverse, hcs]
      rfl
    rw [List.dropWhile_cons, hlast d (by simp [hd])]
    simp [← hcs]

/-- Blanks around a text whose two ends are not blank are exactly what `trim` cuts. -/
theorem trim_append_blanks {before cs after : List Char}
    (hbefore : ∀ c ∈ before, isBlank c = true) (hafter : ∀ c ∈ after, isBlank c = true)
    (hfirst : ∀ c ∈ cs.head?, isBlank c = false) (hlast : ∀ c ∈ cs.getLast?, isBlank c = false)
    (hne : cs ≠ []) : trim (before ++ cs ++ after) = cs := by
  -- the blanks in front end where the text starts, for its first character is none
  have start : trimStart (before ++ cs ++ after) = cs ++ after := by
    unfold trimStart
    induction before with
    | nil =>
      cases cs with
      | nil => exact absurd rfl hne
      | cons c rest => simp [hfirst c (by simp)]
    | cons c rest ih =>
      simp only [List.cons_append, List.dropWhile_cons, hbefore c (by simp), if_true]
      exact ih (fun d hd => hbefore d (by simp [hd]))
  rw [trim, start, dropEndWhile_append hafter hlast]

end SymVec.Text

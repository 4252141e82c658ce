import SymVec.Predicate
import SymVec.Proofs.PointerAccounts

/-!
# Composite values

A decoded value reports references only if it has parts, unless a stored pointer is read as a value
of its own. The literal of a value with parts opens with a brace, or with the call that makes a
value of raw bytes. No literal of a number or a truth value opens like this, so a predicate that
holds of such a value, or does not hold of it, compares it as text.

* `Decoder.silent_or_composite` — what is decoded reports nothing, or has parts;
* `Decoder.validation_of_holds` — a composite value is compared as text only.
-/

namespace SymVec.Decoder

variable {d : Decoder} {bytes : Bytes}

/-! ### Leaves and composites -/

/-- What the literals of composite values begin with: a brace, or the call that makes a value of raw
bytes. -/
def OpensComposite (text : List Char) : Prop :=
  ∃ rest, text = '\x7b' :: rest ∨ text = 'f' :: 'r' :: rest

theorem opensComposite_braced (items : List String) :
    OpensComposite (View.braced items).toList := by
  refine ⟨(", ".intercalate items ++ "\x7d").toList, Or.inl ?_⟩
  simp [View.braced]

/-- A value of raw bytes opens with the call that makes it. -/
theorem opensComposite_fromBytes (name text : String) :
    OpensComposite (Literal.fromBytes name text).toList :=
  ⟨_, Or.inr (by simp [Literal.fromBytes, toString]; rfl)⟩

/-- A value with parts, whose literal shows it. -/
structure IsComposite (view : View) : Prop where
  not_isLeaf : view.isLeaf = false
  opens : OpensComposite view.literal.toList

theorem isComposite_array (elements : List View) : IsComposite (.array elements) :=
  ⟨rfl, opensComposite_braced _⟩

/-- Structures and unions are composite. -/
theorem isComposite_of_recordView {usage : Usage} {levels : Nat} {t : CType} {offset : Nat}
    {access : String} {view : View}
    (h : (d.recordView bytes usage levels t offset access).outcome = .ok view) :
    IsComposite view := by
  cases levels with
  | zero => cases h
  | succ levels =>
    obtain ⟨record, -, h⟩ := Traced.outcome_bind_eq_ok_iff.1 h
    split at h
    · obtain ⟨fields, -, h⟩ := Traced.outcome_bind_eq_ok_iff.1 h
      dsimp only at h
      -- a structure with an anonymous member is written by its raw bytes
      split at h
      · obtain ⟨raw, -, h⟩ := Traced.outcome_bind_eq_ok_iff.1 h
        cases h
        exact ⟨rfl, opensComposite_fromBytes _ _⟩
      · cases h
        exact ⟨rfl, opensComposite_braced _⟩
    · obtain ⟨raw, -, h⟩ := Traced.outcome_bind_eq_ok_iff.1 h
      obtain ⟨members, -, h⟩ := Traced.outcome_bind_eq_ok_iff.1 h
      cases h
      exact ⟨rfl, opensComposite_fromBytes _ _⟩

/-- So is what a buffer of elements is decoded to, grouped or not. -/
theorem isComposite_of_sequenceView {t : CType} {usage : Usage} {name : String} {view : View}
    (h : (d.sequenceView bytes t usage name).outcome = .ok view) : IsComposite view := by
  unfold sequenceView at h
  dsimp only at h
  split at h
  · obtain ⟨elements, -, h⟩ := Traced.outcome_bind_eq_ok_iff.1 h
    cases h
    exact isComposite_array _
  · obtain ⟨counted, -, h⟩ := Traced.outcome_bind_eq_ok_iff.1 h
    obtain ⟨elements, -, h⟩ := Traced.outcome_bind_eq_ok_iff.1 h
    cases h
    exact isComposite_array _

/-- **Leaves report nothing**, unless a stored pointer is read as one. All else is composite. -/
theorem silent_or_composite {t : CType} {usage : Usage} (husage : usage ≠ .lazy) {name : String}
    {view : View} (h : (d.decode bytes t usage name).outcome = .ok view) :
    (d.decode bytes t usage name).references = [] ∨ IsComposite view := by
  unfold decode at h ⊢
  cases hkind : d.registry.kindOf t <;> simp only [hkind] at h ⊢
  -- a leaf is read at the start of the buffer, and no kind of leaf looks up an address
  case primitive => exact Or.inl (references_primitiveView _ _)
  case struct | union => exact Or.inr (isComposite_of_recordView h)
  case enumeration => exact Or.inl (references_enumerationView _ _)
  case functionPointer => exact Or.inl rfl
  case unknown => cases h
  case array => exact Or.inr (isComposite_of_sequenceView h)
  case objectPointer =>
    rw [if_neg husage] at h ⊢
    -- a pointer to a string is a leaf, and any other is read as what it leads to
    split at h
    · next htext =>
      rw [if_pos htext]
      exact Or.inl rfl
    · exact Or.inr (isComposite_of_sequenceView h)

/-! ### Composites are not compared as numbers -/

/-- A text that is empty or begins like the literal of a composite. -/
def IsOpening (text : List Char) : Prop :=
  text = [] ∨ ∃ c rest, text = c :: rest ∧ (c = '\x7b' ∨ c = 'f')

instance (text : List Char) : Decidable (IsOpening text) :=
  decidable_of_iff ((text.head?.all fun c => c = '\x7b' || c = 'f') = true) <| by
    cases text with
    | nil => simp [IsOpening]
    | cons c rest => simp [IsOpening]

/-- The first character is all that the readers of numbers look at. -/
theorem OpensComposite.isOpening {text : List Char} (h : OpensComposite text) : IsOpening text := by
  obtain ⟨rest, rfl | rfl⟩ := h
  · exact Or.inr ⟨_, _, rfl, Or.inl rfl⟩
  · exact Or.inr ⟨_, _, rfl, Or.inr rfl⟩

/-- What is left of such a text when its end is cut off is empty or begins the same way. -/
theorem IsOpening.of_isPrefix {text start : List Char} (h : IsOpening text)
    (hstart : start <+: text) : IsOpening start := by
  cases start with
  | nil => exact Or.inl rfl
  | cons c rest =>
    obtain ⟨after, rfl⟩ := hstart
    obtain hnil | ⟨c', rest', heq, hc⟩ := h
    · -- a prefix of nothing has no first character
      cases hnil
    · obtain ⟨rfl, -⟩ := List.cons.inj heq
      exact Or.inr ⟨c, rest, rfl, hc⟩

theorem isPrefix_dropEndWhile (p : Char → Bool) (text : List Char) :
    Text.dropEndWhile p text <+: text := by
  rw [Text.dropEndWhile, ← List.reverse_suffix, List.reverse_reverse]
  exact List.dropWhile_suffix p

/-- Such a text is cut at its end only. -/
theorem IsOpening.isPrefix_trim {text : List Char} (h : IsOpening text) :
    Text.trim text <+: text := by
  -- neither a brace nor a letter is a blank
  have hstart : Text.trimStart text = text := by
    obtain rfl | ⟨c, rest, rfl, hc⟩ := h
    · rfl
    · refine List.dropWhile_cons_of_neg ?_
      rcases hc with rfl | rfl <;> decide
  rw [Text.trim, hstart]
  exact isPrefix_dropEndWhile _ _

/-- Such a text is no integer, -/
theorem IsOpening.readInteger?_eq {text : List Char} (h : IsOpening text) :
    Text.readInteger? text = none := by
  obtain rfl | ⟨c, rest, rfl, rfl | rfl⟩ := h <;> rfl

/-- no natural number, -/
theorem IsOpening.readNatural?_eq {text : List Char} (h : IsOpening text) :
    Text.readNatural? text = none := by
  unfold Text.readNatural?
  split
  · rfl
  · rw [h.readInteger?_eq, Option.map_none]

/-- and no decimal number. None of the words for one begins with `f`. -/
theorem IsOpening.readDecimal?_eq (f : Binary.Format) {text : List Char} (h : IsOpening text) :
    Decimal.read? f text = none := by
  obtain rfl | ⟨c, rest, rfl, hc⟩ := h
  · rfl
  -- there is neither a sign nor a digit
  have hsign : Decimal.splitSign (c :: rest) = (false, c :: rest) := by
    rcases hc with rfl | rfl <;> rfl
  have hnumber : Decimal.readNumber? (c :: rest) = none := by
    rcases hc with rfl | rfl <;> rfl
  -- no word for a number begins this way
  have hword : ∀ word, String.ofList ((c :: rest).map Char.toLower) = word →
      word.toList.head? = some c := by
    rintro _ rfl
    rcases hc with rfl | rfl <;> simp
  unfold Decimal.read?
  rw [hsign]
  dsimp only
  rw [hnumber]
  dsimp only
  split
  case h_4 => rfl
  all_goals
    next heq => exact absurd (hword _ heq) (by rcases hc with rfl | rfl <;> decide)

/-- The literal of a composite is not read as a signed number. -/
theorem readSigned?_of_opens {text : String} (h : OpensComposite text.toList) :
    Comparable.readSigned? text = none := by
  have htrimmed : IsOpening (Text.trim text.toList) :=
    h.isOpening.of_isPrefix h.isOpening.isPrefix_trim
  -- the form of the least integer opens with a bracket
  have hleast : Comparable.isLeastForm (Text.trim text.toList) = false := by
    obtain hnil | ⟨c, rest, heq, hc⟩ := htrimmed
    · rw [hnil]
      rfl
    · rw [heq]
      rcases hc with rfl | rfl <;> rfl
  have hnumber : Text.readInteger? (Comparable.unsuffixed (Text.trim text.toList)) = none :=
    ((htrimmed.of_isPrefix htrimmed.isPrefix_trim).of_isPrefix
      (isPrefix_dropEndWhile _ _)).readInteger?_eq
  unfold Comparable.readSigned?
  dsimp only
  rw [hleast, hnumber]
  rfl

/-- It is not read as an unsigned number, -/
theorem readUnsigned?_of_opens {text : String} (h : OpensComposite text.toList) :
    Comparable.readUnsigned? text = none := by
  have hnumber : Text.readNatural? (Comparable.unsuffixed text.toList) = none :=
    ((h.isOpening.of_isPrefix h.isOpening.isPrefix_trim).of_isPrefix
      (isPrefix_dropEndWhile _ _)).readNatural?_eq
  rw [Comparable.readUnsigned?, hnumber]
  rfl

/-- as a truth value, though one of the two words begins with `f`, -/
theorem readBoolean?_of_opens {text : String} (h : OpensComposite text.toList) :
    Comparable.readBoolean? text = none := by
  obtain ⟨after, hafter⟩ := h.isOpening.isPrefix_trim
  -- both words differ from it in one of the first two letters
  have hword : ∀ word : List Char, word = "true".toList ∨ word = "false".toList →
      Text.trim text.toList ≠ word := by
    rintro word hword heq
    rw [heq] at hafter
    obtain ⟨rest, htext | htext⟩ := h
    all_goals
      rw [htext] at hafter
      rcases hword with rfl | rfl
      all_goals simp at hafter
  unfold Comparable.readBoolean?
  dsimp only
  rw [if_neg (hword _ (Or.inl rfl)), if_neg (hword _ (Or.inr rfl))]

/-- or as a floating number. -/
theorem readFloat?_of_opens {text : String} (h : OpensComposite text.toList) :
    Comparable.readFloat? text = none := by
  have htrimmed : IsOpening (Text.trim text.toList) :=
    h.isOpening.of_isPrefix h.isOpening.isPrefix_trim
  -- none of the names of special values begins like a composite
  have hname : ∀ name : List Char, ¬IsOpening name → Text.trim text.toList ≠ name := by
    rintro name hname rfl
    exact hname htrimmed
  unfold Comparable.readFloat?
  dsimp only
  rw [if_neg (hname "NAN".toList (by decide)), if_neg (hname "-NAN".toList (by decide)),
    if_neg (hname "INFINITY".toList (by decide)), if_neg (hname "-INFINITY".toList (by decide))]
  exact (htrimmed.of_isPrefix (isPrefix_dropEndWhile _ _)).readDecimal?_eq _

/-- **A composite is compared as text only.** -/
theorem validation_of_holds {p : Predicate} {view : View} (hview : IsComposite view) {holds : Bool}
    (h : p.holds view.literal = .ok holds) :
    p.validation = .character ∨ p.validation = .string := by
  have hopens := hview.opens
  unfold Predicate.holds at h
  cases hvalidation : p.validation with
  | character => exact Or.inl rfl
  | string => exact Or.inr rfl
  | signed width =>
    rw [hvalidation, Comparable.read?, readSigned?_of_opens hopens] at h
    cases h
  | unsigned width =>
    rw [hvalidation, Comparable.read?, readUnsigned?_of_opens hopens] at h
    cases h
  | boolean =>
    rw [hvalidation, Comparable.read?, readBoolean?_of_opens hopens] at h
    cases h
  | float =>
    rw [hvalidation, Comparable.read?, readFloat?_of_opens hopens] at h
    cases h

end SymVec.Decoder

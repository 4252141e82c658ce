import SymVec.Decoder.Value
import SymVec.Proofs.IntegerPredicates
import SymVec.Proofs.StringLiterals

/-!
# String predicates

A predicate on strings compares literals, with the quotes that stand around them. The opening quotes
are equal. Up to the place where one text ends or the texts differ the comparison is the one of
their bytes, but where one text ends its closing quote is compared with the next byte of the other.
The bytes that are written as themselves and lie below the quote are the space and the exclamation
mark. A text that goes on with one of these is *overtaken* by the one that ends: although it is
longer, its literal comes first.

So a predicate says of the literal what its operator says of the contents, unless one of the two is
overtaken by the other. Then it says what the operator says of them the other way round. Equality is
never affected.

* `Comparison.relatesBytes` — the operators on byte strings, in the order of `strcmp`;
* `Overtaken` — where the closing quote changes the order;
* `Literal.quotedText_lt_iff` — the order of the literals, by induction on both texts;
* `Predicate.strings_compared` — predicates on strings that are written as themselves;
* `Predicate.exists_reversed_strings` — an overtaken string.
-/

namespace SymVec

/-! ### Relations between byte strings -/

/-- **Relation** between byte strings that the operator stands for. They are ordered byte by byte,
and a string comes before those that go on where it ends. -/
def Comparison.relatesBytes : Comparison → Bytes → Bytes → Bool
  | equal, s, e => decide (s = e)
  | different, s, e => decide (s ≠ e)
  | less, s, e => decide (s < e)
  | greater, s, e => decide (e < s)
  | atMost, s, e => decide (s ≤ e)
  | atLeast, s, e => decide (e ≤ s)

/-- Texts that are ordered like byte strings are compared like them. -/
theorem Comparison.holds_compare_text (c : Comparison) {text text' : String} {s e : Bytes}
    (hlt : text < text' ↔ s < e) (heq : text = text' ↔ s = e) :
    c.holds (some (compare text text')) = c.relatesBytes s e := by
  have hcompare : compare text text' =
      if s < e then .lt else if s = e then .eq else .gt := by
    change compareOfLessAndEq text text' = _
    simp only [compareOfLessAndEq, hlt, heq]
  rw [hcompare]
  by_cases hless : s < e
  · have hne : s ≠ e := by
      rintro rfl
      exact List.lt_irrefl s hless
    have hle : s ≤ e := List.not_lt.1 (List.lt_asymm hless)
    rw [if_pos hless]
    cases c <;> simp [holds, relatesBytes, hless, hne, hle, List.lt_asymm hless]
  · by_cases hsame : s = e
    · subst hsame
      cases c <;> simp [holds, relatesBytes, List.lt_irrefl]
    · -- of different strings one comes first
      have hgreater : e < s := Decidable.byContradiction fun hnot =>
        hsame (List.le_antisymm (List.not_lt.1 hnot) (List.not_lt.1 hless))
      have hle : e ≤ s := List.not_lt.1 hless
      rw [if_neg hless, if_neg hsame]
      cases c <;> simp [holds, relatesBytes, hless, hsame, hle, hgreater]

/-! ### Overtaking -/

/-- **Overtaken.** One of the strings goes on where the other one ends, with a byte below that of
the quote. -/
def Overtaken (s e : Bytes) : Prop :=
  ∃ b rest, (e = s ++ b :: rest ∨ s = e ++ b :: rest) ∧ b < 0x22

theorem not_overtaken_nil : ¬Overtaken [] [] := by
  rintro ⟨b, rest, h | h, -⟩ <;> cases h

/-- Whether a string is overtaken by the empty one depends on its first byte. -/
theorem overtaken_nil_left {b : UInt8} {e : Bytes} : Overtaken [] (b :: e) ↔ b < 0x22 := by
  constructor
  · rintro ⟨b', rest, h | h, hb⟩ <;> cases h
    exact hb
  · intro hb
    exact ⟨b, e, Or.inl rfl, hb⟩

theorem overtaken_nil_right {b : UInt8} {s : Bytes} : Overtaken (b :: s) [] ↔ b < 0x22 := by
  constructor
  · rintro ⟨b', rest, h | h, hb⟩ <;> cases h
    exact hb
  · intro hb
    exact ⟨b, s, Or.inr rfl, hb⟩

/-- A common first byte makes no difference. -/
theorem overtaken_cons {a b : UInt8} {s e : Bytes} :
    Overtaken (a :: s) (b :: e) ↔ a = b ∧ Overtaken s e := by
  constructor
  · rintro ⟨b', rest, h | h, hb⟩
    · obtain ⟨rfl, rfl⟩ := List.cons.inj h
      exact ⟨rfl, b', rest, Or.inl rfl, hb⟩
    · obtain ⟨rfl, rfl⟩ := List.cons.inj h
      exact ⟨rfl, b', rest, Or.inr rfl, hb⟩
  · rintro ⟨rfl, b', rest, rfl | rfl, hb⟩
    · exact ⟨b', rest, Or.inl rfl, hb⟩
    · exact ⟨b', rest, Or.inr rfl, hb⟩

/-! ### The order of literals -/

namespace Literal

/-- The text of bytes that are written as themselves. -/
def plainText (bytes : Bytes) : List Char := bytes.map fun b => Char.ofNat b.toNat

/-- Printable bytes are ordered like their characters. -/
theorem ofNat_lt_ofNat_iff {a b : UInt8} (ha : isPrintable a = true) (hb : isPrintable b = true) :
    Char.ofNat a.toNat < Char.ofNat b.toNat ↔ a < b := by
  have hchar : Char.ofNat a.toNat < Char.ofNat b.toNat ↔
      (Char.ofNat a.toNat).toNat < (Char.ofNat b.toNat).toNat := Iff.rfl
  -- a printable byte is the code of its character
  rw [hchar, (isPlain_of_isPrintable ha (Or.inl rfl)).1, (isPlain_of_isPrintable hb (Or.inl rfl)).1,
    UInt8.lt_iff_toNat_lt]

/-- Printable bytes are the same if their characters are. -/
theorem ofNat_inj {a b : UInt8} (ha : isPrintable a = true) (hb : isPrintable b = true) :
    Char.ofNat a.toNat = Char.ofNat b.toNat ↔ a = b := by
  refine ⟨fun h => ?_, fun h => by rw [h]⟩
  have hcode := congrArg Char.toNat h
  rw [(isPlain_of_isPrintable ha (Or.inl rfl)).1,
    (isPlain_of_isPrintable hb (Or.inl rfl)).1] at hcode
  exact UInt8.toNat_inj.1 hcode

/-- The quote is no printable byte, so it lies above or below each of them. -/
theorem quote_order {b : UInt8} (hb : isPrintable b = true) :
    ('"' < Char.ofNat b.toNat ↔ ¬b < 0x22) ∧ (Char.ofNat b.toNat < '"' ↔ b < 0x22) ∧
      Char.ofNat b.toNat ≠ '"' := by
  have hcode : (Char.ofNat b.toNat).toNat = b.toNat := (isPlain_of_isPrintable hb (Or.inl rfl)).1
  have hother : b.toNat ≠ 0x22 := by
    intro hquote
    obtain rfl : b = 0x22 := UInt8.toNat_inj.1 hquote
    exact absurd hb (by decide)
  have habove : '"' < Char.ofNat b.toNat ↔ 0x22 < (Char.ofNat b.toNat).toNat := Iff.rfl
  have hbelow : Char.ofNat b.toNat < '"' ↔ (Char.ofNat b.toNat).toNat < 0x22 := Iff.rfl
  have hbyte : b < 0x22 ↔ b.toNat < 0x22 := UInt8.lt_iff_toNat_lt
  refine ⟨?_, ?_, fun h => hother ?_⟩
  · rw [habove, hcode, hbyte]
    omega
  · rw [hbelow, hcode, hbyte]
  · rw [← hcode, h]
    rfl

/-- **The order of quoted texts** is that of the texts, or the other one where one of them is
overtaken. -/
theorem quotedText_lt_iff {s e : Bytes} (hs : ∀ b ∈ s, isPrintable b = true)
    (he : ∀ b ∈ e, isPrintable b = true) :
    (¬Overtaken s e → (plainText s ++ ['"'] < plainText e ++ ['"'] ↔ s < e)) ∧
      (Overtaken s e → (plainText s ++ ['"'] < plainText e ++ ['"'] ↔ e < s)) := by
  induction s generalizing e with
  | nil =>
    cases e with
    | nil =>
      refine ⟨fun _ => ?_, fun h => absurd h not_overtaken_nil⟩
      exact iff_of_false (List.lt_irrefl _) (List.lt_irrefl _)
    | cons b e =>
      -- the closing quote of the one stands against a byte of the other
      obtain ⟨habove, -, hother⟩ := quote_order (he b List.mem_cons_self)
      have horder : plainText [] ++ ['"'] < plainText (b :: e) ++ ['"'] ↔ ¬b < 0x22 := by
        rw [← habove]
        change ['"'] < Char.ofNat b.toNat :: (plainText e ++ ['"']) ↔ _
        rw [List.cons_lt_cons_iff]
        exact ⟨fun h => h.resolve_right fun h' => hother h'.1.symm, Or.inl⟩
      rw [horder, overtaken_nil_left]
      exact ⟨fun h => iff_of_true h (List.nil_lt_cons b e),
        fun h => iff_of_false (not_not_intro h) (List.not_lt_nil _)⟩
  | cons a s ih =>
    cases e with
    | nil =>
      -- now it is the other way round
      obtain ⟨-, hbelow, hother⟩ := quote_order (hs a List.mem_cons_self)
      have horder : plainText (a :: s) ++ ['"'] < plainText [] ++ ['"'] ↔ a < 0x22 := by
        rw [← hbelow]
        change Char.ofNat a.toNat :: (plainText s ++ ['"']) < ['"'] ↔ _
        rw [List.cons_lt_cons_iff]
        exact ⟨fun h => h.resolve_right fun h' => hother h'.1, Or.inl⟩
      rw [horder, overtaken_nil_right]
      exact ⟨fun h => iff_of_false h (List.not_lt_nil _),
        fun h => iff_of_true h (List.nil_lt_cons a s)⟩
    | cons b e =>
      have ha := hs a List.mem_cons_self
      have hb := he b List.mem_cons_self
      have horder : plainText (a :: s) ++ ['"'] < plainText (b :: e) ++ ['"'] ↔
          a < b ∨ a = b ∧ plainText s ++ ['"'] < plainText e ++ ['"'] := by
        change Char.ofNat a.toNat :: (plainText s ++ ['"']) <
          Char.ofNat b.toNat :: (plainText e ++ ['"']) ↔ _
        rw [List.cons_lt_cons_iff, ofNat_lt_ofNat_iff ha hb, ofNat_inj ha hb]
      obtain ⟨hplain, hreversed⟩ := ih (fun b' hb' => hs b' (List.mem_cons_of_mem _ hb'))
        (fun b' hb' => he b' (List.mem_cons_of_mem _ hb'))
      rw [horder, overtaken_cons, List.cons_lt_cons_iff, List.cons_lt_cons_iff]
      -- texts that begin alike are ordered by what follows, any others by the first byte
      by_cases hab : a = b
      · subst hab
        simp only [UInt8.lt_irrefl, true_and, false_or]
        exact ⟨hplain, hreversed⟩
      · simp [hab]

/-- Such texts are the same if their bytes are. -/
theorem plainText_inj {s e : Bytes} (hs : ∀ b ∈ s, isPrintable b = true)
    (he : ∀ b ∈ e, isPrintable b = true) : plainText s = plainText e ↔ s = e := by
  refine ⟨fun h => ?_, fun h => by rw [h]⟩
  induction s generalizing e with
  | nil =>
    cases e with
    | nil => rfl
    | cons b e => cases h
  | cons a s ih =>
    cases e with
    | nil => cases h
    | cons b e =>
      obtain ⟨hfirst, hrest⟩ := List.cons.inj h
      rw [(ofNat_inj (hs a List.mem_cons_self) (he b List.mem_cons_self)).1 hfirst,
        ih (fun b' hb' => hs b' (List.mem_cons_of_mem _ hb'))
          (fun b' hb' => he b' (List.mem_cons_of_mem _ hb')) hrest]

/-- A buffer with a zero byte after such a text is written as the text between quotes. -/
theorem string_eq_quoted {s : Bytes} (hs : ∀ b ∈ s, isPrintable b = true) (after : Bytes) :
    string (s ++ 0 :: after) none = String.ofList ('"' :: plainText s ++ ['"']) := by
  have hzero : ∀ b ∈ s, (b != 0) = true := by
    intro b hb
    rw [bne_iff_ne]
    rintro rfl
    exact absurd (hs 0 hb) (by decide)
  -- no printable byte is zero, so the content ends where the text does
  have hcontent : stringContent (s ++ 0 :: after) none = s := by
    rw [stringContent, List.takeWhile_append_of_pos hzero, List.takeWhile_cons_of_neg (by decide),
      List.append_nil]
  rw [string, hcontent, spellAll_of_isPrintable hs]
  rfl

end Literal

/-! ### Predicates -/

namespace Predicate

open Literal

/-- The predicate on strings with an expected text that is written as itself. -/
theorem make_string (c : Comparison) (text : String) :
    make c.symbol text "string" =
      .ok ⟨c, text, .string, .text (String.ofList ('"' :: text.toList ++ ['"']))⟩ := by
  have hname : Validation.ofName? "string" = some .string := by decide
  refine make_eq_ok_iff.2 ⟨Comparison.ofSymbol?_symbol c, hname, rfl, ?_, rfl⟩
  rw [Comparable.read?]
  refine congrArg some (congrArg Comparable.text (String.toList_injective ?_))
  simp [quoted, toString]

/-- **Predicates on strings.** Let a buffer hold a string that is written as itself, and let such a
text be expected. Then the buffer is decoded, the predicate can be made, and it says of the literal
what its operator says of the two byte strings, unless one of them is overtaken by the other. In
that case it says what the operator says of them the other way round. -/
theorem strings_compared {s e : Bytes} (hs : ∀ b ∈ s, isPrintable b = true)
    (he : ∀ b ∈ e, isPrintable b = true) {t : CType} (ht : t.isCString = true) (c : Comparison)
    (after : Bytes) (d : Decoder) {usage : Usage} (husage : usage ≠ .lazy) (name : String) :
    ∃ view q, (d.decode (s ++ 0 :: after) t usage name).outcome = .ok view ∧
      make c.symbol (String.ofList (plainText e)) "string" = .ok q ∧
      (¬Overtaken s e → q.holds view.literal = .ok (c.relatesBytes s e)) ∧
      (Overtaken s e → q.holds view.literal = .ok (c.relatesBytes e s)) := by
  -- a C string is a pointer to characters
  have hkind : d.registry.kindOf t = .objectPointer := by
    refine Registry.kindOf_eq_objectPointer_iff.2 ?_
    rw [CType.isCString, CType.isSinglePointer, Bool.and_eq_true, Bool.and_eq_true] at ht
    exact ht.1.2
  have hview : (d.decode (s ++ 0 :: after) t usage name).outcome =
      .ok (.string (String.ofList ('"' :: plainText s ++ ['"']))) := by
    rw [Decoder.decode, hkind]
    dsimp only
    rw [if_neg husage, if_pos ht, string_eq_quoted hs]
    rfl
  -- the two literals are ordered like the texts that end with the closing quote
  have hlt : String.ofList ('"' :: plainText s ++ ['"']) <
      String.ofList ('"' :: plainText e ++ ['"']) ↔
        plainText s ++ ['"'] < plainText e ++ ['"'] := by
    change (String.ofList _).toList < (String.ofList _).toList ↔ _
    rw [String.toList_ofList, String.toList_ofList, List.cons_append, List.cons_append,
      List.cons_lt_cons_iff]
    exact ⟨fun h => (h.resolve_left (Char.lt_irrefl _)).2, fun h => Or.inr ⟨rfl, h⟩⟩
  have heq : String.ofList ('"' :: plainText s ++ ['"']) =
      String.ofList ('"' :: plainText e ++ ['"']) ↔ s = e := by
    rw [← plainText_inj hs he]
    refine ⟨fun h => ?_, fun h => by rw [h]⟩
    have hlists := congrArg String.toList h
    simpa using hlists
  obtain ⟨hplain, hreversed⟩ := quotedText_lt_iff hs he
  refine ⟨_, _, hview, make_string c _, fun h => ?_, fun h => ?_⟩
  · rw [holds, View.literal, Comparable.read?, String.toList_ofList]
    exact congrArg Except.ok (c.holds_compare_text (hlt.trans (hplain h)) heq)
  · rw [holds, View.literal, Comparable.read?, String.toList_ofList]
    exact congrArg Except.ok (c.holds_compare_text (hlt.trans (hreversed h)) (heq.trans eq_comm))

/-- The string `ab` comes before `ac`. It comes before `ab!` as well, but overtakes it. -/
theorem ab_compared :
    ¬Overtaken [0x61, 0x62] [0x61, 0x63] ∧ Overtaken [0x61, 0x62] [0x61, 0x62, 0x21] ∧
      ∃ view q q', (bareDecoder.decode [0x61, 0x62, 0] .cString .parameter "s").outcome = .ok view ∧
        make "<" "ac" "string" = .ok q ∧ q.holds view.literal = .ok true ∧
        make "<" "ab!" "string" = .ok q' ∧ q'.holds view.literal = .ok false := by
  have hplain : ¬Overtaken [0x61, 0x62] [0x61, 0x63] := by
    rw [overtaken_cons, overtaken_cons]
    exact fun h => absurd h.2.1 (by decide)
  have hover : Overtaken [0x61, 0x62] [0x61, 0x62, 0x21] := ⟨0x21, [], Or.inl rfl, by decide⟩
  have husage : Usage.parameter ≠ .lazy := by decide
  have hab : ∀ b ∈ [0x61, 0x62], isPrintable b = true := List.all_eq_true.1 (by decide)
  have hac : ∀ b ∈ [0x61, 0x63], isPrintable b = true := List.all_eq_true.1 (by decide)
  have hlonger : ∀ b ∈ [0x61, 0x62, 0x21], isPrintable b = true := List.all_eq_true.1 (by decide)
  obtain ⟨view, q, hview, hq, hholds, -⟩ :=
    strings_compared hab hac (t := .cString) (by decide) .less [] bareDecoder husage "s"
  obtain ⟨view', q', hview', hq', -, hholds'⟩ :=
    strings_compared hab hlonger (t := .cString) (by decide) .less [] bareDecoder husage "s"
  obtain rfl : view = view' := Except.ok.inj (hview.symm.trans hview')
  exact ⟨hplain, hover, view, q, q', hview, hq, hholds hplain, hq', hholds' hover⟩

/-- **An overtaken string** comes after the one that it continues, but its literal comes before. -/
theorem exists_reversed_strings :
    ∃ (s e : Bytes) (view : View) (q : Predicate),
      (∀ b ∈ s, isPrintable b = true) ∧ (∀ b ∈ e, isPrintable b = true) ∧
      (bareDecoder.decode (s ++ [0]) .cString .parameter "s").outcome = .ok view ∧
      make "<" (String.ofList (plainText e)) "string" = .ok q ∧
      s < e ∧ q.holds view.literal = .ok false := by
  have hreversed : Comparison.less.holds (some (compare "\"ab\"" "\"ab!\"")) = false := by decide
  exact ⟨[0x61, 0x62], [0x61, 0x62, 0x21], .string "\"ab\"", _, List.all_eq_true.1 (by decide),
    List.all_eq_true.1 (by decide), rfl, make_string .less _, by decide,
    congrArg Except.ok hreversed⟩

end Predicate

end SymVec

import SymVec.Proofs.Compositionality
import SymVec.Proofs.IntegerPredicates
import SymVec.Proofs.StringLiterals

/-!
# Rows of scalars

The literal of a row of integers, characters or raw bytes can be read back. The reader knows the
type of the elements and nothing of the buffer: it splits the text between the braces at the commas
that stand in no character literal, and reads each item by the rules of C for the type. What it
finds are the numbers that are stored in the buffer, low byte first. So the literal tells the bytes
of all whole elements, and nothing is lost but a rest that is shorter than an element.

A comma, a quote or a backslash among the elements does not mislead the reader. It goes through the
text as a machine of three places, and each item brings the machine back outside of all quotes
without a comma in between that would end it.

* `Literal.splitItems_of_passes` — where the machine passes, no item ends;
* `Literal.readItems?_braced` — items between braces, by induction on them;
* `Literal.readScalar?_scalar` — one scalar;
* `Decoder.scalar_rows_read_back` — rows, and so what two buffers with the same literal share.
-/

namespace SymVec

/-! ### Runs of a buffer -/

namespace Bytes

variable {bytes bytes' run run' : Bytes} {size : Nat}

/-- **Runs.** The whole elements of `size` bytes, in order. -/
def runs (bytes : Bytes) (size : Nat) : List Bytes :=
  (List.range (bytes.length / size)).map fun i => bytes.window (i * size) size

theorem length_of_mem_runs (h : run ∈ bytes.runs size) : run.length = size := by
  obtain ⟨i, hi, rfl⟩ := List.mem_map.1 h
  exact length_window (Decoder.element_within (List.mem_range.1 hi))

/-- The runs are those of the bytes before the rest. -/
theorem runs_eq_of_take (hcount : bytes.length / size = bytes'.length / size)
    (htake : bytes.take (size * (bytes.length / size)) =
      bytes'.take (size * (bytes'.length / size))) : bytes.runs size = bytes'.runs size := by
  unfold runs
  rw [← hcount] at htake ⊢
  apply List.map_congr_left
  intro i hi
  have hfit : i * size + size ≤ size * (bytes.length / size) := by
    have hlt : i + 1 ≤ bytes.length / size := List.mem_range.1 hi
    calc i * size + size = size * (i + 1) := by rw [Nat.mul_succ, Nat.mul_comm]
      _ ≤ size * (bytes.length / size) := Nat.mul_le_mul_left size hlt
  -- a run ends before the rest begins, so cutting off the rest leaves it as it is
  have hwindow (buffer : Bytes) :
      window (buffer.take (size * (bytes.length / size))) (i * size) size =
        buffer.window (i * size) size := by
    rw [window, List.drop_take, List.take_take, window]
    congr 1
    omega
  rw [← hwindow bytes, ← hwindow bytes', htake]

/-- The bytes before the rest are those of the runs. -/
theorem flatten_runs (bytes : Bytes) (size : Nat) :
    (bytes.runs size).flatten = bytes.take (size * (bytes.length / size)) := by
  unfold runs
  generalize bytes.length / size = count
  -- the induction is on the number of runs, the last of which ends where all do
  induction count with
  | zero => rfl
  | succ count ih =>
    rw [List.range_succ, List.map_append, List.flatten_append, ih, List.map_singleton,
      List.flatten_singleton, Nat.mul_succ, List.take_add, window, Nat.mul_comm count]

/-- Numbers of the same length are the same only if their bytes are. -/
theorem eq_of_value_eq (hlength : run.length = run'.length) (h : run.value = run'.value) :
    run = run' := by
  induction run generalizing run' with
  | nil => exact (List.eq_nil_of_length_eq_zero hlength.symm).symm
  | cons b rest ih =>
    cases run' with
    | nil => cases hlength
    | cons b' rest' =>
      have hlow := b.toNat_lt
      have hlow' := b'.toNat_lt
      rw [value_cons, value_cons] at h
      -- the first byte is the remainder by 256
      have hbyte : b = b' := UInt8.toNat_inj.1 (by omega)
      rw [hbyte, ih (Nat.succ.inj hlength) (by omega)]

/-- Runs that store the same numbers are the same. -/
theorem runs_eq_of_values (h : (bytes.runs size).map value = (bytes'.runs size).map value) :
    bytes.runs size = bytes'.runs size := by
  -- there are as many runs as numbers
  have hcount : bytes.length / size = bytes'.length / size := by
    simpa [runs] using congrArg List.length h
  have hlength (buffer : Bytes) (hsame : bytes.length / size = buffer.length / size) {i : Nat}
      (hi : i ∈ List.range (bytes.length / size)) :
      (buffer.window (i * size) size).length = size := by
    rw [hsame] at hi
    exact length_window (Decoder.element_within (List.mem_range.1 hi))
  unfold runs at h ⊢
  rw [← hcount, List.map_map, List.map_map, List.map_inj_left] at h
  rw [← hcount]
  apply List.map_congr_left
  intro i hi
  exact eq_of_value_eq ((hlength bytes rfl hi).trans (hlength bytes' hcount hi).symm) (h i hi)

/-- A signed number and the stored one are the same modulo the numbers of that length. -/
theorem integer_emod (signed : Bool) (run : Bytes) :
    (run.integer signed % ((1 <<< (8 * run.length) : Nat) : Int)).toNat = run.value := by
  have hlt := value_lt run
  unfold integer
  generalize 1 <<< (8 * run.length) = count at hlt ⊢
  -- either the modulus is subtracted once or nothing is
  split
  · rw [Int.sub_emod_right, Int.emod_eq_of_lt (by omega) (by omega), Int.toNat_natCast]
  · rw [Int.emod_eq_of_lt (by omega) (by omega), Int.toNat_natCast]

end Bytes

/-! ### Items between braces -/

namespace Literal

/-- Where a character of a list stands. -/
inductive Place where
  /-- In no character literal. -/
  | outside
  /-- In a character literal. -/
  | inside
  /-- In a character literal, after a backslash. -/
  | escaped
  deriving DecidableEq, Repr

/-- The place after a character. -/
def Place.after : Place → Char → Place
  | outside, c => if c = '\'' then inside else outside
  | inside, c => if c = '\\' then escaped else if c = '\'' then outside else inside
  | escaped, _ => inside

/-- **Items.** The text split at the commas outside of character literals. -/
def splitItems : Place → List Char → List (List Char)
  | _, [] => [[]]
  | place, c :: rest =>
    if place = .outside ∧ c = ',' then [] :: splitItems .outside rest
    else (splitItems (place.after c) rest).modifyHead (c :: ·)

/-- **Passing.** The place after a text in which no item ends. -/
def passes? : Place → List Char → Option Place
  | place, [] => some place
  | place, c :: rest =>
    if place = .outside ∧ c = ',' then none else passes? (place.after c) rest

/-- A text is passed in two parts, the second from the place where the first one ends. -/
theorem passes?_append (place : Place) (text rest : List Char) :
    passes? place (text ++ rest) = (passes? place text).bind fun next => passes? next rest := by
  induction text generalizing place with
  | nil => rfl
  | cons c tail ih =>
    rw [List.cons_append, passes?, passes?]
    -- an item ends here or the place moves on
    split
    · rfl
    · exact ih _

/-- What is passed belongs to one item. -/
theorem splitItems_of_passes {place next : Place} {text : List Char}
    (h : passes? place text = some next) (rest : List Char) :
    splitItems place (text ++ rest) = (splitItems next rest).modifyHead (text ++ ·) := by
  induction text generalizing place with
  | nil =>
    obtain rfl := Option.some.inj h
    exact List.modifyHead_id.symm ▸ rfl
  | cons c tail ih =>
    rw [passes?] at h
    split at h
    · cases h
    · next hsplit =>
      rw [List.cons_append, splitItems, if_neg hsplit, ih h, List.modifyHead_modifyHead]
      rfl

/-- **Item.** A text that is left outside of all quotes, and that does not start with a blank. -/
structure IsItem (text : List Char) : Prop where
  passes : passes? .outside text = some .outside
  start : ∃ c rest, text = c :: rest ∧ Text.isBlank c = false

theorem IsItem.ne_nil {text : List Char} (h : IsItem text) : text ≠ [] := by
  obtain ⟨c, rest, rfl, -⟩ := h.start
  exact List.cons_ne_nil c rest

theorem IsItem.trimStart {text : List Char} (h : IsItem text) : Text.trimStart text = text := by
  obtain ⟨c, rest, rfl, hblank⟩ := h.start
  rw [Text.trimStart, List.dropWhile_cons, hblank]
  rfl

/-- A text without quotes and commas passes. -/
theorem passes?_of_plain {text : List Char} (h : ∀ c ∈ text, c ≠ '\'' ∧ c ≠ ',') :
    passes? .outside text = some .outside := by
  induction text with
  | nil => rfl
  | cons c rest ih =>
    obtain ⟨hquote, hcomma⟩ := h c List.mem_cons_self
    -- the place stays outside, since only a quote would change it
    rw [passes?, if_neg (fun hsplit => hcomma hsplit.2), Place.after, if_neg hquote]
    exact ih fun c' hc' => h c' (List.mem_cons_of_mem c hc')

/-- The text between braces. -/
def unbraced? : List Char → Option (List Char)
  | '\x7b' :: rest => if rest.getLast? = some '\x7d' then some rest.dropLast else none
  | _ => none

theorem unbraced?_eq (inner : List Char) :
    unbraced? ('\x7b' :: (inner ++ ['\x7d'])) = some inner := by
  rw [unbraced?, List.getLast?_concat, if_pos rfl, List.dropLast_concat]

/-- **Items of a list** between braces, without the blanks before them. -/
def readItems? (text : String) : Option (List (List Char)) :=
  (unbraced? text.toList).map fun inner =>
    if inner = [] then [] else (splitItems .outside inner).map Text.trimStart

/-- A blank before the first item is cut. -/
theorem map_trimStart_blank (items : List (List Char)) :
    (items.modifyHead (' ' :: ·)).map Text.trimStart = items.map Text.trimStart := by
  cases items with
  | nil => rfl
  | cons item rest => rfl

/-- Items with a comma and a blank between them are split again. -/
theorem splitItems_intercalate {first : List Char} {others : List (List Char)}
    (h : ∀ item ∈ first :: others, IsItem item) :
    (splitItems .outside ([',', ' '].intercalate (first :: others))).map Text.trimStart =
      first :: others := by
  have hfirst : IsItem first := h first List.mem_cons_self
  induction others generalizing first with
  | nil =>
    have hsplit := splitItems_of_passes hfirst.passes []
    rw [List.append_nil] at hsplit
    rw [List.intercalate_singleton, hsplit, splitItems, List.modifyHead_cons, List.append_nil,
      List.map_singleton, hfirst.trimStart]
  | cons second others ih =>
    have hsecond : IsItem second := h second (by simp)
    have hrest := ih (fun item hitem => h item (List.mem_cons_of_mem first hitem)) hsecond
    -- the comma ends the first item, and the blank goes to the second one
    have hcomma (rest : List Char) : splitItems .outside ([',', ' '] ++ rest) =
        [] :: (splitItems .outside rest).modifyHead (' ' :: ·) := rfl
    rw [List.intercalate_cons_cons, List.append_assoc, splitItems_of_passes hfirst.passes, hcomma,
      List.modifyHead_cons, List.append_nil, List.map_cons, hfirst.trimStart, map_trimStart_blank,
      hrest]

/-- Items between braces are read back. -/
theorem readItems?_braced {items : List String} (h : ∀ item ∈ items, IsItem item.toList) :
    readItems? (View.braced items) = some (items.map String.toList) := by
  have htext : (View.braced items).toList =
      '\x7b' :: ([',', ' '].intercalate (items.map String.toList) ++ ['\x7d']) := by
    rw [View.braced, String.toList_append, String.toList_append, String.toList_intercalate]
    rfl
  rw [readItems?, htext, unbraced?_eq, Option.map_some]
  cases items with
  | nil => rfl
  | cons first others =>
    have hitems : ∀ item ∈ first.toList :: others.map String.toList, IsItem item := by
      intro item hitem
      rw [← List.map_cons] at hitem
      obtain ⟨text, htext, rfl⟩ := List.mem_map.1 hitem
      exact h text htext
    -- only a list without items is written as nothing between the braces
    have hne : [',', ' '].intercalate (first.toList :: others.map String.toList) ≠ [] := by
      intro hnil
      have hsplit := splitItems_intercalate hitems
      rw [hnil] at hsplit
      exact (hitems _ List.mem_cons_self).ne_nil (List.cons.inj hsplit).1.symm
    rw [List.map_cons, if_neg hne, splitItems_intercalate hitems]

/-- A comma and a quote as characters. -/
example : splitItems .outside "',', '\\''".toList = ["','".toList, " '\\''".toList] := by decide

/-! ### Characters -/

/-- A character literal: the code of the character. -/
def readCharacter? : List Char → Option Nat
  | '\'' :: rest =>
    (readUnit? '\'' rest).bind fun unit => if unit.2 = ['\''] then some unit.1 else none
  | _ => none

theorem toList_character (code : Int) :
    (character code).toList = '\'' :: (spell (UInt8.ofNat (code % 256).toNat) ++ ['\'']) := by
  rw [character, String.toList_ofList, List.cons_append]

/-- A spelled byte is passed within its quotes, also where it is a quote itself. -/
theorem passes?_spell (code : UInt8) : passes? .inside (spell code) = some .inside := by
  -- there are only so many bytes
  have hall : ∀ n < 256, passes? .inside (spell (UInt8.ofNat n)) = some .inside := by
    decide +kernel
  have hcode := hall code.toNat code.toNat_lt
  rwa [UInt8.ofNat_toNat] at hcode

/-- A character literal is an item, whatever the character. -/
theorem isItem_character (code : Int) : IsItem (character code).toList where
  passes := by
    rw [toList_character, passes?, if_neg (by simp), Place.after, if_pos rfl, passes?_append,
      passes?_spell]
    rfl
  start := ⟨_, _, toList_character code, rfl⟩

/-- The code is read back modulo 256, so without its sign. -/
theorem readCharacter?_character (code : Int) :
    readCharacter? (character code).toList = some (UInt8.ofNat (code % 256).toNat).toNat := by
  -- the quote ends an escape with digits, as it is none of them
  have hclosed : ∀ c ∈ ['\''].head?, isHexDigit c = false := by
    intro c hc
    cases hc
    rfl
  rw [toList_character, readCharacter?, readUnit?_spell_of_quote (.inr rfl) (.inr hclosed),
    Option.bind_some, if_pos rfl]

/-! ### Integers -/

/-- An integer with a suffix: a decimal, or the least 64-bit integer as a difference. -/
def readSuffixed? (suffix : String) (item : List Char) : Option Int :=
  if item = ("(-9223372036854775807" ++ suffix ++ " - 1)").toList then some leastInteger
  else (Text.before? suffix (String.ofList item)).bind fun digits =>
    Text.readInteger? digits.toList

/-- A decimal with the letters of a suffix is an item. -/
theorem isItem_decimal (n : Int) {tail : List Char}
    (htail : ∀ c ∈ tail, c ∈ Comparable.suffixLetters) : IsItem ((toString n).toList ++ tail) where
  passes := by
    apply passes?_of_plain
    intro c hc
    -- digits and a sign come first, and then the letters of the suffix
    rcases List.mem_append.1 hc with hc | hc
    · rcases Comparable.isDigit_or_minus hc with hdigit | rfl
      · constructor <;> rintro rfl <;> cases hdigit
      · decide
    · have hletter := htail c hc
      simp only [Comparable.suffixLetters, List.mem_cons, List.not_mem_nil, or_false] at hletter
      rcases hletter with rfl | rfl | rfl | rfl <;> decide
  start := by
    -- the text of an integer can be read, so it is not empty
    have hne : (toString n).toList ≠ [] := by
      intro hnil
      have hread := Text.readInteger?_toString n
      rw [hnil] at hread
      cases hread
    obtain ⟨c, rest, htext⟩ := List.exists_cons_of_ne_nil hne
    refine ⟨c, rest ++ tail, by rw [htext, List.cons_append], ?_⟩
    apply Comparable.not_isBlank_plain htail
    rw [htext]
    exact List.mem_cons_self

/-- A decimal with the suffix of a type. -/
theorem readSuffixed?_decimal (n : Int) (type : String) :
    readSuffixed? (suffix type) (toString n ++ suffix type).toList = some n := by
  have hforms : ∀ s ∈ ["", "L", "LL", "U", "UL", "ULL"],
      Comparable.isLeastForm ("(-9223372036854775807" ++ s ++ " - 1)").toList = true := by
    decide +kernel
  -- a plain decimal is not taken for the difference
  have hform : (toString n ++ suffix type).toList ≠
      ("(-9223372036854775807" ++ suffix type ++ " - 1)").toList := by
    intro heq
    have hplain := Comparable.isLeastForm_plain n (suffix type).toList
    rw [← String.toList_append, heq, hforms _ (suffix_mem type)] at hplain
    cases hplain
  have hbefore : Text.before? (suffix type) (toString n ++ suffix type) = some (toString n) :=
    Text.before?_eq_some_iff.2 rfl
  rw [readSuffixed?, if_neg hform, String.ofList_toList, hbefore, Option.bind_some,
    Text.readInteger?_toString]

/-- A signed integer is read back, the least one included. -/
theorem readSuffixed?_signed (n : Int) (type : String) :
    readSuffixed? (suffix type) (signed n type).toList = some n := by
  by_cases hleast : n = leastInteger ∧ suffix type ≠ ""
  · rw [signed, if_pos hleast, readSuffixed?, if_pos rfl, hleast.1]
  · rw [signed, if_neg hleast]
    exact readSuffixed?_decimal n type

/-- A signed integer is an item. -/
theorem isItem_signed (n : Int) (type : String) : IsItem (signed n type).toList := by
  by_cases hleast : n = leastInteger ∧ suffix type ≠ ""
  · -- the difference has blanks and parentheses, but neither quotes nor commas
    have hforms : ∀ s ∈ ["", "L", "LL", "U", "UL", "ULL"],
        passes? .outside ("(-9223372036854775807" ++ s ++ " - 1)").toList = some .outside ∧
          ("(-9223372036854775807" ++ s ++ " - 1)").toList.head? = some '(' := by
      decide +kernel
    obtain ⟨hpasses, hhead⟩ := hforms _ (suffix_mem type)
    obtain ⟨rest, hrest⟩ := List.head?_eq_some_iff.1 hhead
    rw [signed, if_pos hleast]
    exact ⟨hpasses, '(', rest, hrest, rfl⟩
  · rw [signed, if_neg hleast, String.toList_append]
    exact isItem_decimal n (Comparable.suffix_letters type)

/-- An integer without a sign is written like one with a sign. -/
theorem unsigned_eq_signed (n : Nat) (type : String) : unsigned n type = signed n type := by
  rw [signed_of_ne (by unfold leastInteger; omega)]
  rfl

/-! ### Scalars -/

/-- Characters take a byte. -/
theorem size_of_character {name : String} {p : Primitive} (h : Primitive.find? name = some p)
    (hrole : p.role = .character) : p.size = 1 := by
  unfold Primitive.find? at h
  split at h <;> cases h <;> first | rfl | cases hrole

/-- **Reader of scalars** of a primitive type that is spelled `type`: the number, modulo the numbers
that fit into its size. -/
def readScalar? (p : Primitive) (type : String) (item : List Char) : Option Nat :=
  let number :=
    match p.role with
    | .character => (readCharacter? item).map Int.ofNat
    | .integer => readSuffixed? (suffix type) item
    | .byte => Text.readInteger? item
    | .boolean | .floating | .void => none
  number.map fun n => (n % ((1 <<< (8 * p.size) : Nat) : Int)).toNat

/-- **Reader of rows** of scalars. -/
def readRow? (p : Primitive) (type : String) (text : String) : Option (List Nat) :=
  (readItems? text).bind fun items => items.mapM (readScalar? p type)

/-- Whether values of the role are read back: integers, characters and raw bytes. -/
def isReadBack : Primitive.Role → Bool
  | .integer | .character | .byte => true
  | _ => false

section Scalar

variable {p : Primitive} {type : String} {run : Bytes} (hfind : Primitive.find? type = some p)
  (hlength : run.length = p.size)

include hfind hlength

theorem length_bounds : 0 < run.length ∧ run.length ≤ 8 := by
  rw [hlength]
  exact Primitive.size_bounds hfind

/-- What is written for a scalar is the stored integer, with a sign or without. -/
theorem stored_eq_integer : (if p.signed then Word.toSigned run.word (8 * p.size) else run.word) =
    run.integer p.signed := by
  obtain ⟨hne, hle⟩ := length_bounds hfind hlength
  -- the word of a signed type is turned into a number by its highest bit
  cases p.signed with
  | true => rw [if_pos rfl, ← hlength, Bytes.toSigned_word hne hle]
  | false =>
    rw [if_neg Bool.false_ne_true, Bytes.word_eq_value hle]
    simp [Bytes.integer]

/-- **A scalar** is an item, and its number is read from it. -/
theorem readScalar?_scalar (hrole : isReadBack p.role = true) :
    IsItem (scalar run.word (8 * p.size) p type).toList ∧
      readScalar? p type (scalar run.word (8 * p.size) p type).toList = some run.value := by
  have hstored := stored_eq_integer hfind hlength
  have hvalue (signed : Bool) := Bytes.integer_emod signed run
  rw [hlength] at hvalue
  unfold readScalar? scalar
  cases hkind : p.role <;> rw [hkind] at hrole <;> dsimp only
  case integer =>
    -- signed or not, the literal is that of the stored integer
    have hliteral : (if p.signed then signed (Word.toSigned run.word (8 * p.size)) type
        else unsigned run.word type) = signed (run.integer p.signed) type := by
      rw [← hstored]
      cases p.signed with
      | true => rfl
      | false => exact unsigned_eq_signed run.word type
    rw [hliteral, readSuffixed?_signed, Option.map_some, hvalue]
    exact ⟨isItem_signed _ _, rfl⟩
  case character =>
    have hone : p.size = 1 := size_of_character hfind hkind
    have hbyte : run.value < 256 := by
      have hlt := Bytes.value_lt run
      rwa [hlength, hone] at hlt
    have hcode : (run.integer p.signed % 256).toNat = run.value := by
      have hcode := hvalue p.signed
      rwa [hone] at hcode
    -- the code is read without a sign, and is below the modulus
    rw [hstored, readCharacter?_character, hcode, Option.map_some, Option.map_some, hone]
    refine ⟨isItem_character _, congrArg some ?_⟩
    have hsame : (UInt8.ofNat run.value).toNat = run.value := UInt8.toNat_ofNat_of_lt' hbyte
    rw [hsame]
    change ((run.value : Int) % 256).toNat = run.value
    omega
  case byte =>
    -- a raw byte is written with a sign, whether or not its type has one
    obtain ⟨hne, hle⟩ := length_bounds hfind hlength
    rw [← hlength, Bytes.toSigned_word hne hle, hlength, Text.readInteger?_toString,
      Option.map_some, hvalue]
    have hitem : IsItem ((toString (run.integer true)).toList ++ []) := isItem_decimal _ nofun
    rw [List.append_nil] at hitem
    exact ⟨hitem, rfl⟩
  all_goals cases hrole

end Scalar

/-- **A row of scalars** is read back to the numbers in the runs. -/
theorem readRow?_braced {p : Primitive} {type : String} (hfind : Primitive.find? type = some p)
    (hrole : isReadBack p.role = true) {runs : List Bytes}
    (hlength : ∀ run ∈ runs, run.length = p.size) :
    readRow? p type (View.braced (runs.map fun run => scalar run.word (8 * p.size) p type)) =
      some (runs.map Bytes.value) := by
  have hscalar (run : Bytes) (hrun : run ∈ runs) :=
    readScalar?_scalar hfind (hlength run hrun) hrole
  have hitems : ∀ item ∈ runs.map fun run => scalar run.word (8 * p.size) p type,
      IsItem item.toList := by
    intro item hitem
    obtain ⟨run, hrun, rfl⟩ := List.mem_map.1 hitem
    exact (hscalar run hrun).1
  rw [readRow?, readItems?_braced hitems, Option.bind_some, List.map_map]
  -- only the reader of single items takes part in what follows
  clear hitems hlength
  induction runs with
  | nil => rfl
  | cons run rest ih =>
    rw [List.map_cons, List.mapM_cons, Function.comp_apply, (hscalar run List.mem_cons_self).2,
      ih fun run' hrun' => hscalar run' (List.mem_cons_of_mem run hrun')]
    rfl

end Literal

/-! ### Rows -/

namespace Decoder

open Traced

variable {d : Decoder} {bytes : Bytes} {t : CType} {p : Primitive} {usage : Usage}

/-- The element type of a row has no levels, and is primitive if the base of the row is. -/
theorem IsRow.primitive_element (hrow : d.IsRow t usage) (hp : t.primitive? = some p) :
    d.registry.kindOf t.pointee = .primitive ∧ d.registry.sizeOf t.pointee = .ok p.size ∧
      Primitive.find? t.baseName = some p := by
  have hlevels : t.pointee.levels = [] := by
    rw [CType.pointee_of_dimension_one hrow.dimension, CType.levels_baseType]
  have hpointee : t.pointee.primitive? = some p := hp
  have hkind : d.registry.kindOf t.pointee = .primitive :=
    Registry.kindOf_of_primitive? _ hlevels hpointee
  obtain ⟨p', hp', hsize⟩ := Registry.primitive_of_kindOf hkind
  obtain rfl : p = p' := Option.some.inj (hpointee.symm.trans hp')
  exact ⟨hkind, hsize, CType.find?_of_primitive? hp⟩

/-- A primitive value among the elements of a row. -/
theorem outcome_elementStep {nested : Nested} {u : CType} (hp : u.primitive? = some p)
    (hkind : d.registry.kindOf u = .primitive) (hword : bytes.length < Word.limit) {i : Nat}
    (hi : i < bytes.length / p.size) (access : String) :
    (d.elementStep bytes nested u p.size 0 bytes.length access i).outcome =
      .ok (.primitive (Literal.scalar (bytes.window (i * p.size) p.size).word (8 * p.size) p
        u.baseName)) := by
  have hfit : i * p.size + p.size ≤ bytes.length := element_within hi
  -- places within a buffer do not overflow
  have hplace : (Word.mul? i p.size).bind (Word.add? 0) = some (i * p.size) :=
    elementPlace_eq_some_iff.2 ⟨by omega, Nat.zero_add _⟩
  unfold elementStep elementView primitiveView
  rw [hplace, hkind, hp]
  dsimp only
  rw [readBytes_of_within hfit]
  rfl

/-- A row of a primitive type is read to the end of the buffer. -/
theorem outcome_decode_row (hp : t.primitive? = some p) (hrow : d.IsRow t usage)
    (husage : usage.knownSize? = none) (hword : bytes.length < Word.limit) (name : String) :
    (d.decode bytes t usage name).outcome = .ok (.array ((bytes.runs p.size).map fun run =>
      .primitive (Literal.scalar run.word (8 * p.size) p t.baseName))) := by
  obtain ⟨hkind, hsize, hfind⟩ := hrow.primitive_element hp
  have helement : isElementKind (d.registry.kindOf t.pointee) = true := by rw [hkind]; rfl
  have hpos : 0 < p.size := (Primitive.size_bounds hfind).1
  rw [hrow.decode_eq husage, arrayView, outcome_bind_eq_ok_iff]
  refine ⟨_, ?_, rfl⟩
  -- the elements are read one after another, each in its own run
  rw [arrayElements_eq_mapM helement hsize hpos, outcome_mapM_eq_ok_iff, Bytes.runs, List.map_map,
    List.forall₂_map_right_iff, List.forall₂_same]
  have hpointee : t.pointee.primitive? = some p := hp
  intro i hi
  exact outcome_elementStep hpointee hkind hword (List.mem_range.1 hi) name

/-- **Rows of scalars are read back.** From the literal of a row of integers, characters or raw
bytes, a reader that knows their type finds the numbers in the buffer, as many as there are whole
elements. So two buffers have the same literal exactly if they have the same number of elements and
agree on all bytes of these. -/
theorem scalar_rows_read_back (d : Decoder) (hp : t.primitive? = some p)
    (hrole : Literal.isReadBack p.role = true) (hrow : d.IsRow t usage)
    (husage : usage.knownSize? = none) (name : String) :
    (∀ bytes : Bytes, bytes.length < Word.limit →
      ∃ view, (d.decode bytes t usage name).outcome = .ok view ∧
        Literal.readRow? p t.baseName view.literal = some ((bytes.runs p.size).map Bytes.value)) ∧
    ∀ (bytes bytes' : Bytes) (view view' : View), bytes.length < Word.limit →
      bytes'.length < Word.limit → (d.decode bytes t usage name).outcome = .ok view →
        (d.decode bytes' t usage name).outcome = .ok view' →
          (view.literal = view'.literal ↔ bytes.length / p.size = bytes'.length / p.size ∧
            bytes.take (p.size * (bytes.length / p.size)) =
              bytes'.take (p.size * (bytes'.length / p.size))) := by
  obtain ⟨-, -, hfind⟩ := hrow.primitive_element hp
  have hdecode {bytes : Bytes} (hword : bytes.length < Word.limit) :=
    outcome_decode_row hp hrow husage hword name
  -- the literal of a row, from which the numbers are read
  have hliteral (bytes : Bytes) : View.literal (.array ((bytes.runs p.size).map fun run =>
      .primitive (Literal.scalar run.word (8 * p.size) p t.baseName))) =
      View.braced ((bytes.runs p.size).map fun run =>
        Literal.scalar run.word (8 * p.size) p t.baseName) := by
    rw [View.literal, View.literals_eq_map, List.map_map]
    rfl
  have hread (bytes : Bytes) := Literal.readRow?_braced hfind hrole
    fun run (hrun : run ∈ bytes.runs p.size) => Bytes.length_of_mem_runs hrun
  refine ⟨fun bytes hword => ⟨_, hdecode hword, by rw [hliteral, hread]⟩, ?_⟩
  intro bytes bytes' view view' hword hword' hview hview'
  obtain rfl := Except.ok.inj ((hdecode hword).symm.trans hview)
  obtain rfl := Except.ok.inj ((hdecode hword').symm.trans hview')
  rw [hliteral, hliteral]
  constructor
  · intro heq
    -- the same reader finds the same numbers in both
    have hvalues := congrArg (Literal.readRow? p t.baseName) heq
    rw [hread, hread] at hvalues
    have hruns := Bytes.runs_eq_of_values (Option.some.inj hvalues)
    refine ⟨by simpa [Bytes.runs] using congrArg List.length hruns, ?_⟩
    rw [← Bytes.flatten_runs, ← Bytes.flatten_runs, hruns]
  · rintro ⟨hcount, htake⟩
    rw [Bytes.runs_eq_of_take hcount htake]

/-- The code of a comma, a quote, a backslash, a bell, and a byte that is no ASCII character. -/
def awkwardBytes : Bytes := [0x2C, 0x27, 0x5C, 0x07, 0x80]

/-- Characters that could be taken for the syntax of an array are read back; and two rows of the
least `long` have the same literal, since they differ only in a rest that is no element. -/
theorem awkwardBytes_read_back :
    (∃ view, (Predicate.bareDecoder.decode awkwardBytes ((CType.simple "char").array 5) .parameter
        "s").outcome = .ok view ∧
      Literal.readRow? ⟨1, .character, true⟩ "char" view.literal =
        some [0x2C, 0x27, 0x5C, 0x07, 0x80]) ∧
    ∃ view view',
      (Predicate.bareDecoder.decode (Predicate.leastLong ++ [1, 2]) ((CType.simple "long").array 1)
        .parameter "n").outcome = .ok view ∧
      (Predicate.bareDecoder.decode (Predicate.leastLong ++ [3]) ((CType.simple "long").array 1)
        .parameter "n").outcome = .ok view' ∧
      view.literal = view'.literal ∧
      Literal.readRow? ⟨8, .integer, true⟩ "long" view.literal = some [0x8000000000000000] := by
  have hcharRow : Predicate.bareDecoder.IsRow ((CType.simple "char").array 5) .parameter :=
    ⟨rfl, .inl rfl⟩
  have hlongRow : Predicate.bareDecoder.IsRow ((CType.simple "long").array 1) .parameter :=
    ⟨rfl, .inl rfl⟩
  have hchar : ((CType.simple "char").array 5).primitive? = some ⟨1, .character, true⟩ := rfl
  have hlong : ((CType.simple "long").array 1).primitive? = some ⟨8, .integer, true⟩ := rfl
  obtain ⟨hchars, -⟩ := scalar_rows_read_back Predicate.bareDecoder hchar rfl hcharRow rfl "s"
  obtain ⟨hlongs, hsame⟩ := scalar_rows_read_back Predicate.bareDecoder hlong rfl hlongRow rfl "n"
  refine ⟨hchars awkwardBytes (by decide), ?_⟩
  obtain ⟨view, hview, hread⟩ := hlongs (Predicate.leastLong ++ [1, 2]) (by decide)
  obtain ⟨view', hview', -⟩ := hlongs (Predicate.leastLong ++ [3]) (by decide)
  refine ⟨view, view', hview, hview', ?_, hread⟩
  exact (hsame _ _ _ _ (by decide) (by decide) hview hview').2 (by decide)

end Decoder

end SymVec

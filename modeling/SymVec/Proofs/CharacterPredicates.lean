import SymVec.Proofs.ReplacedResults
import SymVec.Proofs.ScalarRows

/-!
# Predicates on characters

A predicate on characters compares literals. The one of the decoded character is written with
escapes, but the expected character is put between quotes as it was given. The two spellings agree
for the characters that are written as themselves, so a predicate compares these by their codes. An
escape starts with a backslash and is compared like one: it is equal to no expected character, and
comes before it or after it as the backslash does. So a result that is a line feed is not equal to
an expected line feed.

Against an expected backslash the letter after the backslash of the escape decides, which is
compared with the closing quote. Only the escape of the double quote comes before.

* `Literal.comparedPlace` — the order of the literals as numbers;
* `Literal.character_lt_iff`, `Literal.character_eq_iff` — the decoded and the expected literal;
* `TestCase.Assembly.ownCase_withPredicate` — a vector's own case under a predicate that tells
  the same of all that its result can be decoded to;
* `TestCase.Assembly.characters_compared` — the cases under a predicate on characters;
* `TestCase.Assembly.exists_dropped_newline` — a line feed that is not equal to itself.
-/

namespace SymVec

/-- Texts that are ordered like integers are compared like them. -/
theorem compare_text_eq {text text' : String} {x y : Int} (hlt : text < text' ↔ x < y)
    (heq : text = text' ↔ x = y) : compare text text' = compare x y := by
  change compareOfLessAndEq text text' = compareOfLessAndEq x y
  simp only [compareOfLessAndEq, hlt, heq]

/-! ### The order of character literals -/

namespace Literal

/-- **Place** of the literal of a decoded character among those that can be expected. The expected
character of code `n` has the place `2 * n`. A character that is written as itself has the place of
its code, and an escape stands next to the backslash. -/
def comparedPlace (code : UInt8) : Int :=
  if isPrintable code then 2 * code.toNat
  else if code = 0x22 then 2 * 0x5C - 1
  else 2 * 0x5C + 1

/-- The literal of an expected character, between quotes as it was given. -/
def rawCharacter (e : Char) : String := String.ofList ['\'', e, '\'']

/-- An escape has a letter after its backslash, and that of the double quote alone has one below
the quote that closes a character literal. -/
theorem exists_of_not_isPrintable {code : UInt8} (h : isPrintable code = false) :
    ∃ letter rest, spell code = '\\' :: letter :: rest ∧ (letter < '\'' ↔ code = 0x22) := by
  unfold spell
  cases hescape : escape? code with
  | some letter =>
    have hletters : ∀ p ∈ escapes, p.2 < '\'' ↔ p.1 = 0x22 := by decide
    exact ⟨letter, [], rfl, hletters _ (mem_of_lookup hescape)⟩
  | none =>
    have hother : code ≠ 0x22 := by
      rintro rfl
      cases hescape
    rw [h]
    exact ⟨'x', _, rfl, iff_of_false (by decide) hother⟩

section

variable {code : UInt8} {e : Char}

/-- A literal of a character is its spelling between quotes. -/
theorem toList_characterOf (code : UInt8) :
    (character code.toNat).toList = '\'' :: (spell code ++ ['\'']) := by
  have hcode : ((code.toNat : Int) % 256).toNat = code.toNat := by
    have hlt : code.toNat < 256 := code.toNat_lt
    omega
  rw [toList_character, hcode, UInt8.ofNat_toNat]

/-- **The order of the literals.** Both open with a quote, and a spelling is one character or starts
with a backslash and a letter. -/
theorem character_lt_iff : character code.toNat < rawCharacter e ↔
    comparedPlace code < 2 * (e.toNat : Int) := by
  -- the quotes that open the literals are equal and drop out
  have hopen : character code.toNat < rawCharacter e ↔ spell code ++ ['\''] < [e, '\''] := by
    change (character code.toNat).toList < (rawCharacter e).toList ↔ _
    rw [toList_characterOf, rawCharacter, String.toList_ofList, List.cons_lt_cons_iff]
    exact ⟨fun h => (h.resolve_left (Char.lt_irrefl _)).2, fun h => Or.inr ⟨rfl, h⟩⟩
  rw [hopen, comparedPlace]
  by_cases hprintable : isPrintable code = true
  · have hcode : (Char.ofNat code.toNat).toNat = code.toNat :=
      (isPlain_of_isPrintable hprintable (Or.inl rfl)).1
    have hchar : Char.ofNat code.toNat < e ↔ (Char.ofNat code.toNat).toNat < e.toNat := Iff.rfl
    -- the codes decide, and where they are equal the closing quotes are too
    rw [spell_of_isPrintable hprintable, if_pos hprintable, List.singleton_append,
      List.cons_lt_cons_iff, hchar, hcode]
    simp only [List.lt_irrefl, and_false, or_false]
    omega
  · obtain ⟨letter, rest, hspell, hletter⟩ :=
      exists_of_not_isPrintable (Bool.eq_false_iff.2 hprintable)
    -- after the backslash the letter stands against the closing quote
    have hsecond : letter :: (rest ++ ['\'']) < ['\''] ↔ code = 0x22 := by
      rw [List.cons_lt_cons_iff, hletter]
      simp only [List.not_lt_nil, and_false, or_false]
    have hchar : '\\' < e ↔ 0x5C < e.toNat := Iff.rfl
    have hsame : '\\' = e ↔ 0x5C = e.toNat := Char.toNat_inj.symm
    rw [hspell, if_neg hprintable, List.cons_append, List.cons_append, List.cons_lt_cons_iff,
      hsecond, hchar, hsame]
    -- against a backslash the escape of the double quote is the one that comes before
    by_cases hquote : code = 0x22
    · rw [if_pos hquote]
      simp only [hquote, and_true]
      omega
    · rw [if_neg hquote]
      simp only [hquote, and_false, or_false]
      omega

/-- **Equal literals.** Only a character that is written as itself can equal an expected one. -/
theorem character_eq_iff : character code.toNat = rawCharacter e ↔
    comparedPlace code = 2 * (e.toNat : Int) := by
  have hopen : character code.toNat = rawCharacter e ↔ spell code ++ ['\''] = [e, '\''] := by
    rw [← String.toList_inj, toList_characterOf, rawCharacter, String.toList_ofList]
    exact List.cons_inj_right _
  rw [hopen, comparedPlace]
  by_cases hprintable : isPrintable code = true
  · have hcode : (Char.ofNat code.toNat).toNat = code.toNat :=
      (isPlain_of_isPrintable hprintable (Or.inl rfl)).1
    rw [spell_of_isPrintable hprintable, if_pos hprintable, List.singleton_append,
      List.cons_eq_cons, ← Char.toNat_inj, hcode]
    simp only [and_true]
    omega
  · obtain ⟨letter, rest, hspell, -⟩ :=
      exists_of_not_isPrintable (Bool.eq_false_iff.2 hprintable)
    rw [hspell, if_neg hprintable]
    refine iff_of_false (fun h => ?_) (by split <;> omega)
    -- an escape is too long
    have hlength := congrArg List.length h
    simp at hlength

end

end Literal

/-! ### Relations between places -/

namespace Comparison

variable {code : UInt8} {e : Char}

/-- A character that is written as itself is compared by its code. -/
theorem relates_place_of_isPrintable (c : Comparison) (h : Literal.isPrintable code = true) :
    c.relates (Literal.comparedPlace code) (2 * e.toNat) = c.relates code.toNat e.toNat := by
  rw [Literal.comparedPlace, if_pos h]
  cases c <;> simp only [relates, decide_eq_decide] <;> omega

/-- Any other character is compared as a backslash, unless a backslash is expected. -/
theorem relates_place_of_escaped (c : Comparison) (h : Literal.isPrintable code = false)
    (he : e ≠ '\\') :
    c.relates (Literal.comparedPlace code) (2 * e.toNat) = c.relates 0x5C e.toNat := by
  have hcode : e.toNat ≠ 0x5C := fun hsame => he (Char.toNat_inj.1 hsame)
  rw [Literal.comparedPlace, if_neg (by simp [h])]
  split <;> cases c <;> simp only [relates, decide_eq_decide] <;> omega

end Comparison

/-! ### Predicates -/

namespace Predicate

open Literal

variable {c : Comparison} {e : Char}

/-- The predicate with one expected character. -/
def ofCharacter (c : Comparison) (e : Char) : Predicate :=
  ⟨c, String.singleton e, .character, .text (rawCharacter e)⟩

/-- A predicate can be made of each operator and each character. -/
theorem make_character (c : Comparison) (e : Char) :
    make c.symbol (String.singleton e) "char" = .ok (ofCharacter c e) := by
  have hname : Validation.ofName? "char" = some .character := by decide
  refine make_eq_ok_iff.2 ⟨Comparison.ofSymbol?_symbol c, hname, rfl, ?_, rfl⟩
  rw [ofCharacter, Comparable.read?]
  -- the expected text is put between quotes and not escaped
  refine congrArg some (congrArg Comparable.text (String.toList_injective ?_))
  simp [quoted, rawCharacter, toString]

/-- The predicate tells of a decoded character what its operator says of the places. -/
theorem holds_character (c : Comparison) (e : Char) (code : UInt8) :
    (ofCharacter c e).holds (character code.toNat) =
      .ok (c.relates (comparedPlace code) (2 * e.toNat)) := by
  rw [← Comparison.holds_compare, ← compare_text_eq character_lt_iff character_eq_iff]
  rfl

/-- The case then returns the expected character as a decoded one is written, with its escape. -/
theorem expectedLiteral_character (c : Comparison) (he : e.toNat < 0x80) :
    (ofCharacter c e).expectedLiteral = character e.toNat := by
  unfold expectedLiteral ofCharacter
  simp only [String.toList_singleton]
  -- a text of one byte
  exact if_pos he

end Predicate

/-! ### Returned characters -/

namespace TestCase

variable {d : Decoder} {v : TestVector} {t : CType}

/-- The returned character, the first byte of its object. -/
def resultCode? (v : TestVector) : Option UInt8 := (v.contents? resultName).bind List.head?

/-- Whether the returned character has a place that is related to that of the expected one. -/
def resultMeets (c : Comparison) (e : Char) (v : TestVector) : Bool :=
  (resultCode? v).any fun code => c.relates (Literal.comparedPlace code) (2 * e.toNat)

/-- A character type has no levels and is primitive. -/
theorem exists_of_isCharacter (ht : t.isCharacter = true) :
    t.levels = [] ∧ ∃ p, t.primitive? = some p ∧ p.role = .character := by
  obtain ⟨hsimple, hrole⟩ := Bool.and_eq_true_iff.1 ht
  refine ⟨List.isEmpty_iff.1 (Bool.and_eq_true_iff.1 hsimple).1, ?_⟩
  obtain ⟨p, hp, hcharacter⟩ := Option.map_eq_some_iff.1 (of_decide_eq_true hrole)
  exact ⟨p, hp, hcharacter⟩

/-- The returned value is checked where a character is returned. -/
theorem isUnchecked_of_isCharacter (ht : t.isCharacter = true) : t.isUnchecked = false := by
  obtain ⟨hlevels, p, hp, hrole⟩ := exists_of_isCharacter ht
  have hfunction : t.isFunction = false := by
    cases hf : t.isFunction with
    | false => rfl
    | true => simp [CType.primitive?, hf] at hp
  -- the empty type is no primitive character
  have hvoid : t.baseName ≠ "void" := by
    intro hname
    have hfind := CType.find?_of_primitive? hp
    rw [hname] at hfind
    cases hfind
    cases hrole
  simp [CType.isUnchecked, CType.isVoid, CType.baseIsVoid, CType.isFunctionPointer,
    CType.isArrayOfFunctionPointers, hfunction, hvoid]

theorem isObjectPointer_of_isCharacter (ht : t.isCharacter = true) :
    t.isObjectPointer = false := by
  rw [CType.isObjectPointer, (exists_of_isCharacter ht).1]
  rfl

/-- A stored character is written as the literal of its byte, whether or not it has a sign. -/
theorem scalar_character {p : Primitive} (hfind : Primitive.find? t.baseName = some p)
    (hrole : p.role = .character) (code : UInt8) :
    Literal.scalar (Bytes.word [code]) (8 * p.size) p t.baseName =
      Literal.character code.toNat := by
  have hsize : [code].length = p.size := (Literal.size_of_character hfind hrole).symm
  -- with a sign or without one, the byte is left over from a division by `256`
  have hcode : (Bytes.integer p.signed [code] % 256).toNat = ((code.toNat : Int) % 256).toNat := by
    have hlt : code.toNat < 256 := code.toNat_lt
    refine (Bytes.integer_emod p.signed [code]).trans ?_
    rw [Bytes.value_cons, Bytes.value_nil]
    omega
  simp only [Literal.scalar, hrole, Literal.stored_eq_integer hfind hsize]
  rw [Literal.character, Literal.character, hcode]

/-- A character is decoded from the first byte of a buffer. -/
theorem outcome_decode_character (ht : t.isCharacter = true) (d : Decoder) (bytes : Bytes)
    (usage : Usage) (name : String) :
    (d.decode bytes t usage name).outcome =
      match bytes with
      | [] => .error (.outOfBounds 0 1 0)
      | code :: _ => .ok (.primitive (Literal.character code.toNat)) := by
  obtain ⟨hlevels, p, hp, hrole⟩ := exists_of_isCharacter ht
  have hfind := CType.find?_of_primitive? hp
  have hsize : p.size = 1 := Literal.size_of_character hfind hrole
  cases bytes with
  | nil =>
    rw [Decoder.decode, Registry.kindOf_of_primitive? d.registry hlevels hp]
    simp only [Decoder.primitiveView, hp, hsize]
    rfl
  | cons code rest =>
    have hlong : p.size ≤ (code :: rest).length := by
      rw [hsize, List.length_cons]
      omega
    rw [Decoder.outcome_decode_primitive d hlevels hp hlong]
    dsimp only
    rw [← scalar_character hfind hrole code, hsize]
    rfl

/-- **A returned character** is decoded as the literal of the first byte of its object. -/
theorem view_of_returnedValue (ht : t.isCharacter = true) {decoded : NamedValue}
    (h : (returnedValue d v t).outcome = .ok decoded) :
    ∃ code, resultCode? v = some code ∧
      decoded.view = .primitive (Literal.character code.toNat) := by
  -- a character is decoded as the result itself, not behind a pointer or as an array
  have hreturned : returnedValue d v t = required d v resultName t none .result := by
    rw [returnedValue, isUnchecked_of_isCharacter ht, CType.isReturnedArray, CType.checkedType,
      isObjectPointer_of_isCharacter ht]
    rfl
  rw [hreturned] at h
  obtain ⟨found, hfound, h⟩ := Traced.outcome_bind_eq_ok_iff.1 h
  unfold named? at hfound
  rw [resultCode?]
  cases hcontents : v.contents? resultName with
  | none =>
    rw [hcontents] at hfound
    cases hfound
    cases h
  | some bytes =>
    rw [hcontents] at hfound
    obtain ⟨view, hview, hfound⟩ := Traced.outcome_bind_eq_ok_iff.1 hfound
    cases hfound
    cases h
    rw [outcome_decode_character ht] at hview
    cases bytes with
    -- a result without a byte is not decoded
    | nil => cases hview
    | cons code rest =>
      cases hview
      exact ⟨code, rfl, rfl⟩

namespace Assembly

variable {a : Assembly}

/-! ### Cases under a predicate -/

/-- The returned value of a made case is decoded by its decoder. -/
theorem Makes.exists_decoder {returnType : CType} {vars : Variables} {returned : NamedValue}
    {c : TestCase} (h : a.Makes returnType v vars returned c) :
    ∃ d, (returnedValue d v returnType).outcome = .ok vars.returned := by
  cases h with
  | intro _ _ decoded _ => exact ⟨_, (decodes_of_decodeVariables decoded).returned⟩

/-- Where no pointer is returned, a made case returns what it is made with, and it is made alike
with any other value. -/
theorem Makes.withReturned {returnType : CType} (hpointer : returnType.isObjectPointer = false)
    {vars : Variables} {returned : NamedValue} {c : TestCase}
    (h : a.Makes returnType v vars returned c) (returned' : NamedValue) :
    c.returned = returned ∧
      a.Makes returnType v vars returned' { c with returned := returned' } := by
  have hkept (notNull : Option String) (value : NamedValue) :
      applyNullness returnType notNull value = value := by
    simp [applyNullness, hpointer]
  obtain ⟨c', hmakes, hreturned, rfl⟩ := h.exists_returned returned'
  rw [hkept] at hreturned
  subst hreturned
  exact ⟨hkept _ _, hmakes⟩

/-- Let a predicate tell the same of all that the result of a vector can be decoded to. Then the
vector's own case under the predicate is the one without it, if it is kept, with the view that the
predicate puts in the place of the decoded one. -/
theorem ownCase_withPredicate {pathFlag forAssert : Bool} {texts : PredicateTexts} {p : Predicate}
    (htext : p.validation ≠ .string) (hpointer : a.method.returnType.isObjectPointer = false)
    {keep : Bool} {view : View}
    (hdecided : ∀ d decoded, (returnedValue d v a.method.returnType).outcome = .ok decoded →
      applyPredicate (some p) decoded =
        .ok (if keep then some { decoded with view } else none)) :
    (a.withFilters ⟨pathFlag, forAssert, some texts⟩).ownCase (some p) v =
      (((a.withFilters ⟨pathFlag, forAssert, none⟩).ownCase none v).filter fun _ => keep).map
        fun c => { c with returned := { c.returned with view } } := by
  -- only a comparison as text changes the type as which the result is decoded
  have htype : (a.withFilters ⟨pathFlag, forAssert, some texts⟩).returnType (some p) =
      a.method.returnType := if_neg htext
  have htype' : (a.withFilters ⟨pathFlag, forAssert, none⟩).returnType none =
      a.method.returnType := rfl
  -- a made case shows what its result was decoded with, and that decides what the predicate tells
  refine Option.ext fun c => ?_
  simp only [Option.map_eq_some_iff, Option.filter_eq_some_iff, ownCase_eq_some_iff, htype, htype',
    makes_withFilters_iff]
  constructor
  · -- a case under the predicate comes of the case with the decoded result in its place
    rintro ⟨vars, returned, ⟨c', hmakes, rfl⟩, hflag, hreturned⟩
    obtain ⟨d, hdecoded⟩ := hmakes.exists_decoder
    rw [hdecided d _ hdecoded] at hreturned
    cases keep with
    | false => cases hreturned
    | true =>
      cases hreturned
      obtain ⟨hview, hmakes'⟩ := hmakes.withReturned hpointer vars.returned
      refine ⟨_, ⟨⟨vars, vars.returned, ⟨_, hmakes', rfl⟩, hflag, rfl⟩, rfl⟩, ?_⟩
      dsimp only
      rw [hview]
      rfl
  · -- and the case without the predicate is made with the view it puts there
    rintro ⟨_, ⟨⟨vars, returned, ⟨c', hmakes, rfl⟩, hflag, hreturned⟩, hkept⟩, rfl⟩
    obtain rfl : keep = true := hkept
    cases hreturned
    obtain ⟨d, hdecoded⟩ := hmakes.exists_decoder
    obtain ⟨hview, hmakes'⟩ := hmakes.withReturned hpointer { vars.returned with view }
    refine ⟨vars, _, ⟨_, hmakes', ?_⟩, hflag, hdecided d _ hdecoded⟩
    dsimp only
    rw [hview]
    rfl

/-- A case without a predicate returns the literal of the returned character. -/
theorem view_of_ownCase (ht : a.method.returnType.isCharacter = true) {c : TestCase}
    (h : a.ownCase none v = some c) :
    ∃ code, resultCode? v = some code ∧
      c.returned.view = .primitive (Literal.character code.toNat) := by
  obtain ⟨vars, returned, hmakes, -, hreturned⟩ := ownCase_eq_some_iff.1 h
  cases hreturned
  obtain ⟨d, hdecoded⟩ := hmakes.exists_decoder
  rw [(hmakes.withReturned (isObjectPointer_of_isCharacter ht) vars.returned).1]
  exact view_of_returnedValue ht hdecoded

/-- A predicate on characters tells of a returned character what its operator says of the places. -/
theorem applyPredicate_character (ht : t.isCharacter = true) (c : Comparison) {e : Char}
    (he : e.toNat < 0x80) {decoded : NamedValue}
    (hdecoded : (returnedValue d v t).outcome = .ok decoded) :
    applyPredicate (some (.ofCharacter c e)) decoded =
      .ok (if resultMeets c e v then
        some { decoded with view := .primitive (Literal.character e.toNat) } else none) := by
  obtain ⟨code, hcode, hview⟩ := view_of_returnedValue ht hdecoded
  have hliteral : decoded.view.literal = Literal.character code.toNat := by
    rw [hview]
    rfl
  rw [applyPredicate, hliteral, Predicate.holds_character, resultMeets, hcode, Option.any_some,
    Predicate.expectedLiteral_character c he]
  cases c.relates (Literal.comparedPlace code) (2 * e.toNat) with
  | true => rfl
  | false => rfl

/-- A vector's own case under a predicate on characters. -/
theorem ownCase_withCharacter (ht : a.method.returnType.isCharacter = true) (c : Comparison)
    {e : Char} (he : e.toNat < 0x80) {pathFlag forAssert : Bool} {texts : PredicateTexts}
    (v : TestVector) :
    (a.withFilters ⟨pathFlag, forAssert, some texts⟩).ownCase (some (.ofCharacter c e)) v =
      (((a.withFilters ⟨pathFlag, forAssert, none⟩).ownCase none v).filter fun _ =>
        resultMeets c e v).map fun own =>
          { own with
            returned := { own.returned with
              view := .primitive (Literal.character e.toNat) } } := by
  have htext : (Predicate.ofCharacter c e).validation ≠ .string := by
    intro h
    cases h
  exact ownCase_withPredicate htext (isObjectPointer_of_isCharacter ht)
    fun _ _ => applyPredicate_character ht c he

/-- Where every vector has a case of its own, the own cases are those of all vectors. -/
theorem map_fst_ownCases {predicate : Option Predicate} {vectors : List TestVector}
    (h : ∀ v ∈ vectors, (a.ownCase predicate v).isSome) :
    (a.ownCases predicate vectors).map (·.1) = vectors := by
  induction vectors with
  | nil => rfl
  | cons v rest ih =>
    obtain ⟨c, hown⟩ := Option.isSome_iff_exists.1 (h v List.mem_cons_self)
    rw [ownCases_cons_of_some hown, List.map_cons,
      ih fun v' hv' => h v' (List.mem_cons_of_mem _ hv')]

/-- A vector whose assembly makes a case has a case of its own. -/
theorem isSome_ownCase {predicate : Option Predicate} (hpredicate : a.predicate? = .ok predicate)
    {c : TestCase} (h : (a.assemble [v]).1 = .ok [c]) : (a.ownCase predicate v).isSome := by
  rw [assemble_eq hpredicate, List.filterMap_cons] at h
  cases hown : a.ownCase predicate v with
  | none =>
    rw [hown] at h
    cases h
  | some c' => rfl

/-- **Predicates on characters.** Let a function return a character, and let a character of one byte
be expected. Of the cases that are assembled without the predicate exactly those are kept whose
returned byte has a place that is related to that of the expected one, and each of these returns the
expected character. A byte that is written as itself is so compared by its code, and any other byte
as a backslash unless a backslash is expected. -/
theorem characters_compared (a : Assembly) (ht : a.method.returnType.isCharacter = true)
    (c : Comparison) {e : Char} (he : e.toNat < 0x80) (pathFlag forAssert : Bool)
    (vectors : List TestVector) :
    ∃ drafted : List (TestVector × TestCase),
      ((a.withFilters ⟨pathFlag, forAssert, none⟩).assemble vectors).1 =
        .ok (numbered 0 (drafted.map (·.2))) ∧
      (drafted.map (·.1)).Sublist vectors ∧
      ((∀ v ∈ vectors, ∃ own,
          ((a.withFilters ⟨pathFlag, forAssert, none⟩).assemble [v]).1 = .ok [own]) →
        drafted.map (·.1) = vectors) ∧
      (∀ x ∈ drafted, ∃ code, resultCode? x.1 = some code ∧
        x.2.returned.view = .primitive (Literal.character code.toNat)) ∧
      ((a.withFilters ⟨pathFlag, forAssert, some ⟨c.symbol, .singleton e, "char"⟩⟩).assemble
          vectors).1 =
        .ok (numbered 0 ((drafted.filter fun x => resultMeets c e x.1).map fun x =>
          { x.2 with
            returned := { x.2.returned with view := .primitive (Literal.character e.toNat) } })) ∧
      ∀ x ∈ drafted, ∀ code, resultCode? x.1 = some code →
        (Literal.isPrintable code = true →
          resultMeets c e x.1 = c.relates code.toNat e.toNat) ∧
        (Literal.isPrintable code = false → e ≠ '\\' →
          resultMeets c e x.1 = c.relates 0x5C e.toNat) := by
  -- both assemblies have their predicate, and differ in nothing else
  have hunfiltered : (a.withFilters ⟨pathFlag, forAssert, none⟩).predicate? = .ok none := rfl
  have hfiltered : (a.withFilters ⟨pathFlag, forAssert, some ⟨c.symbol, .singleton e,
      "char"⟩⟩).predicate? = .ok (some (.ofCharacter c e)) :=
    predicate?_withFilters (Predicate.make_character c e)
  refine ⟨(a.withFilters ⟨pathFlag, forAssert, none⟩).ownCases none vectors, ?_,
    ownCases_sublist _ _ _, fun h => ?_, fun x hx => ?_, ?_, fun x _ code hcode => ?_⟩
  · rw [assemble_eq hunfiltered, map_ownCases]
  · refine map_fst_ownCases fun v hv => ?_
    obtain ⟨own, hcase⟩ := h v hv
    exact isSome_ownCase hunfiltered hcase
  · have hown := ownCase_of_mem_ownCases hx
    exact view_of_ownCase (a := a.withFilters ⟨pathFlag, forAssert, none⟩) ht hown
  · -- the cases under the predicate, vector by vector
    rw [assemble_eq hfiltered, filterMap_ownCase_of (ownCase_withCharacter ht c he)]
  · rw [resultMeets, hcode, Option.any_some]
    exact ⟨c.relates_place_of_isPrintable, c.relates_place_of_escaped⟩

/-- A function without parameters that returns a character. -/
def letterAssembly : Assembly where
  method := { name := "letter", returnType := .simple "char" }

/-- A vector that returned the character of that code. -/
def letterVector (code : UInt8) : TestVector where
  objects := [⟨resultName, [code], [], 0x20, false⟩]

/-- The graph of such a vector, whose only object holds no pointers. -/
def letterGraph (code : UInt8) : ObjectGraph (letterVector code) where
  table := ⟨[(0x20, resultName)]⟩

/-- The only visit of its search. -/
def letterVisit (code : UInt8) : Visit (letterVector code) :=
  ⟨⟨0, Nat.zero_lt_one⟩, .simple "char", resultName⟩

/-- The vector makes a case. The search for lazy objects ends with the result. -/
theorem exists_case_letter (code : UInt8) :
    ∃ own, (letterAssembly.assemble [letterVector code]).1 = .ok [own] := by
  have hbuild : ObjectGraph.build (letterVector code) 8 = .ok (letterGraph code) := rfl
  have hdeclared : (LazySearch.declarations (letterAssembly.decoder (letterGraph code).table)
      (letterGraph code) (letterAssembly.roots (.simple "char"))).outcome = .ok [] := by
    have hfollow : LazySearch.follow letterAssembly.registry (letterVisit code)
        ((letterGraph code).edgesFrom (letterVisit code).object) [(letterVisit code).object] =
          .ok [] := rfl
    have hsearch : LazySearch.search (letterAssembly.decoder (letterGraph code).table).registry
        (letterGraph code) (letterAssembly.roots (.simple "char")) =
          ([letterVisit code], none) := by
      unfold LazySearch.search
      change LazySearch.explore letterAssembly.registry (letterGraph code) [letterVisit code]
        [(letterVisit code).object] = _
      rw [LazySearch.explore_cons_of_ok hfollow, List.map_nil, List.append_nil,
        LazySearch.explore_nil]
    unfold LazySearch.declarations
    rw [hsearch]
    rfl
  obtain ⟨vars, hvars⟩ : ∃ vars, (letterAssembly.decodeVariables
      (letterAssembly.decoder (letterGraph code).table) (letterVector code)
        (.simple "char")).outcome = .ok vars := by
    -- an object that is no stub has no value of one
    have hname : Text.before? symbolicEnding resultName = none := by decide
    have hstubs : (letterVector code).objects.mapM (stubValue
        (letterAssembly.decoder (letterGraph code).table) letterAssembly.method) =
          pure [none] := by
      simp [letterVector, stubValue, hname]
    simp only [decodeVariables, hstubs]
    exact ⟨_, rfl⟩
  obtain ⟨own, hown, -⟩ := exists_case_of_unfiltered (a := letterAssembly)
    (v := letterVector code) rfl rfl rfl hbuild hvars hdeclared
  exact ⟨own, hown⟩

/-- Of the results `a` and `x` the first one is at most `b`, and its case returns a `b`. -/
theorem letters_compared :
    letterAssembly.method.returnType.isCharacter = true ∧ ('b').toNat < 0x80 ∧
    ∃ own, ((letterAssembly.withFilters ⟨false, false, some ⟨"<=", "b", "char"⟩⟩).assemble
        [letterVector 0x61, letterVector 0x78]).1 = .ok [own] ∧
      own.returned.view = .primitive "'b'" := by
  have hcharacter : letterAssembly.method.returnType.isCharacter = true := by decide
  have hascii : ('b').toNat < 0x80 := by decide
  obtain ⟨drafted, -, -, hall, -, hkept, -⟩ := characters_compared letterAssembly hcharacter
    .atMost hascii false false [letterVector 0x61, letterVector 0x78]
  -- no vector is left out, so the first case is that of `a` and the second that of `x`
  have hvectors := hall fun v hv => by
    rcases List.mem_pair.1 hv with rfl | rfl
    · exact exists_case_letter 0x61
    · exact exists_case_letter 0x78
  obtain ⟨first, rest, rfl, hfirst, hrest⟩ := List.map_eq_cons_iff.1 hvectors
  obtain ⟨second, rest, rfl, hsecond, hrest⟩ := List.map_eq_cons_iff.1 hrest
  obtain rfl := List.map_eq_nil_iff.1 hrest
  have hmeets : resultMeets .atMost 'b' first.1 = true := by
    rw [hfirst]
    decide
  have hmisses : resultMeets .atMost 'b' second.1 = false := by
    rw [hsecond]
    decide
  simp only [List.filter, hmeets, hmisses] at hkept
  exact ⟨hcharacter, hascii, _, hkept, rfl⟩

/-- **A dropped line feed.** A function returned a line feed, and its case is assembled. With a
predicate that expects a line feed there is none. -/
theorem exists_dropped_newline :
    letterAssembly.method.returnType.isCharacter = true ∧
    resultCode? (letterVector 0x0A) = some 0x0A ∧ ('\n').toNat = 0x0A ∧
    Comparison.equal.relates 0x0A 0x0A = true ∧
    (∃ own, (letterAssembly.assemble [letterVector 0x0A]).1 = .ok [own]) ∧
    ((letterAssembly.withFilters ⟨false, false, some ⟨"==", "\n", "char"⟩⟩).assemble
      [letterVector 0x0A]).1 = .ok [] := by
  have hcharacter : letterAssembly.method.returnType.isCharacter = true := by decide
  have hascii : ('\n').toNat < 0x80 := by decide
  have hmisses : resultMeets .equal '\n' (letterVector 0x0A) = false := by decide
  have hpredicate : (letterAssembly.withFilters
      ⟨false, false, some ⟨"==", "\n", "char"⟩⟩).predicate? =
        .ok (some (.ofCharacter .equal '\n')) :=
    predicate?_withFilters (Predicate.make_character .equal '\n')
  refine ⟨hcharacter, rfl, rfl, rfl, exists_case_letter 0x0A, ?_⟩
  rw [assemble_eq hpredicate, List.filterMap_cons, ownCase_withCharacter hcharacter .equal hascii,
    hmisses]
  simp [numbered]

end Assembly

end TestCase

end SymVec

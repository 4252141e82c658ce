import SymVec.Proofs.IntegerPredicates
import SymVec.Proofs.Selection
import SymVec.Proofs.StringLiterals

/-!
# Standard input

The number of bytes read from symbolic standard input is recorded as a `long long`. It is not taken
from the bytes but from their literal, which is read without its suffix. This makes no difference
but for the least integer, which has no plain literal and so is read as no number at all. Other
negative numbers and those beyond the capacity are over the budget. All others are lengths, and the
text is the string of as many bytes, zero bytes included.

Whichever error there is, it concerns the one vector. The cases are those of the other vectors, and
if nothing fails before standard input, the vector is given up with this error.

* `TestCase.countOf?_signed` — which numbers survive their literal;
* `TestCase.outcome_stdinValue` — standard input by the recorded number;
* `TestCase.Assembly.ownCase_of_unread` — a vector without standard input makes no case;
* `TestCase.Assembly.stdin_budgeted` — the budget of standard input;
* `TestCase.Assembly.exists_unread_count` — a negative number that is not over the budget.
-/

namespace SymVec.TestCase

open Traced

variable {d : Decoder} {v : TestVector} {n : Int}

/-! ### The number of bytes -/

/-- The suffix behind the decimal of an integer, in which there is no letter, is all that is cut. -/
theorem dropSuffix (n : Int) :
    Text.dropEndings "LL".toList ((toString n).toList ++ "LL".toList) = (toString n).toList := by
  refine Text.dropEndings_append (by decide) fun hsuffix => ?_
  -- what is left after the suffix would end with it, and then the decimal has a letter
  have hletter : 'L' ∈ (toString n).toList := hsuffix.subset (by decide)
  rcases Comparable.isDigit_or_minus hletter with hdigit | hminus
  · cases hdigit
  · cases hminus

/-- **The number survives its literal**, unless it is the least one. -/
theorem countOf?_signed (hlow : -0x8000000000000000 ≤ n) (hhigh : n < 0x8000000000000000) :
    countOf? (Literal.signed n "long long") =
      if n = Literal.leastInteger then none else some n := by
  have hsuffix : Literal.suffix "long long" = "LL" := rfl
  split
  · next hleast =>
    -- its literal is an expression, which ends in a parenthesis and so keeps its suffix
    have hends : ¬"LL".toList <:+ (Literal.signed Literal.leastInteger "long long").toList := by
      decide +kernel
    rw [hleast, countOf?, Text.dropEndings_eq_self hends]
    decide +kernel
  · next hleast =>
    have hrange : Validation.inRange (.signed .w64) n = true := by
      refine decide_eq_true ?_
      change -0x8000000000000000 ≤ n ∧ n < 0x8000000000000000
      exact ⟨hlow, hhigh⟩
    rw [Literal.signed_of_ne hleast, hsuffix, countOf?, String.toList_append, dropSuffix,
      Text.readInteger?_toString, Option.filter_some, hrange]
    rfl

/-! ### What is read -/

/-- The text of the first `count` bytes of the buffer, which are within the capacity. -/
def standardText (capacity : Nat) (buffer? : Option Bytes) (count : Nat) :
    Except DecodeError (Option NamedValue) :=
  match buffer? with
  | none => .error (.missingObject stdinName)
  | some buffer =>
    if count ≤ buffer.length then
      .ok (some ⟨stdinVariable, (CType.simple "char").array capacity, none,
        .string (Literal.string (buffer.take count) (some (buffer.take count).length))⟩)
    else .error (.outOfBounds 0 count buffer.length)

/-- **Standard input by the recorded number** of bytes. -/
def standardInput (capacity : Nat) (buffer? : Option Bytes) (n : Int) :
    Except DecodeError (Option NamedValue) :=
  if n = Literal.leastInteger then
    .error (.malformed "stdin read count (-9223372036854775807LL - 1)")
  else if n = 0 then .ok none
  else if n < 0 ∨ capacity < n then .error (.stdinBudget n capacity)
  else standardText capacity buffer? n.toNat

/-- A recorded number is decoded as its literal. -/
theorem outcome_readCount {bytes : Bytes} (hread : v.contents? stdinReadName = some bytes)
    (hlength : 8 ≤ bytes.length) (hn : Bytes.integer true (bytes.take 8) = n) :
    (named? d v stdinReadName .longLong none .parameter).outcome =
      .ok (some ⟨stdinReadName, .longLong, none, .primitive (Literal.signed n "long long")⟩) := by
  have hprimitive : CType.longLong.primitive? = some ⟨8, .integer, true⟩ := rfl
  have htake : (bytes.take 8).length = 8 := List.length_take_of_le hlength
  -- the word is signed by the highest of its eight bytes
  have hword : Word.toSigned (Bytes.word (bytes.take 8)) (8 * 8) = n := by
    rw [← hn, ← Bytes.toSigned_word (by omega) (by omega), htake]
  have hview : (d.decode bytes .longLong .parameter stdinReadName).outcome =
      .ok (.primitive (Literal.signed n "long long")) := by
    rw [Decoder.outcome_decode_primitive d rfl hprimitive hlength, Literal.scalar]
    dsimp only
    rw [if_pos rfl, hword]
    rfl
  unfold named?
  rw [hread]
  dsimp only
  rw [bind_of_ok hview]
  rfl

/-- Standard input is that of the number that the eight bytes store. -/
theorem outcome_stdinValue {bytes : Bytes} (hread : v.contents? stdinReadName = some bytes)
    (hlength : 8 ≤ bytes.length) (hn : Bytes.integer true (bytes.take 8) = n) :
    (stdinValue d v).outcome =
      standardInput d.config.stdinCapacity (v.contents? stdinName) n := by
  have htake : (bytes.take 8).length = 8 := List.length_take_of_le hlength
  obtain ⟨hlow, hhigh⟩ : -0x8000000000000000 ≤ n ∧ n < 0x8000000000000000 := by
    rw [← hn]
    exact Bytes.integer_signed_range (by omega) (by omega)
  -- what is read from the literal is the number itself, if anything
  have hcount := countOf?_signed hlow hhigh
  unfold stdinValue standardInput
  rw [bind_of_ok (outcome_readCount hread hlength hn)]
  dsimp only [View.literal]
  by_cases hleast : n = Literal.leastInteger
  · rw [hcount, if_pos hleast, if_pos hleast, hleast]
    rfl
  · rw [if_neg hleast] at hcount ⊢
    simp only [hcount]
    split
    · rfl
    · rw [outcome_bind, stdinBytes]
      split
      · rfl
      · unfold standardText
        cases v.contents? stdinName with
        | none => rfl
        | some buffer =>
          dsimp only
          rw [outcome_readBytes, Nat.zero_add, List.drop_zero]
          split <;> rfl

/-- **Budget of standard input.** What becomes of standard input by the recorded number of bytes. -/
structure Budgeted (capacity : Nat) (buffer? : Option Bytes) (n : Int)
    (outcome : Except DecodeError (Option NamedValue)) : Prop where
  /-- Nothing was read. -/
  nothing : n = 0 → outcome = .ok none
  /-- The least number has no literal that is read as a number. -/
  least : n = Literal.leastInteger →
    outcome = .error (.malformed "stdin read count (-9223372036854775807LL - 1)")
  beyond : n ≠ Literal.leastInteger → n < 0 ∨ capacity < n →
    outcome = .error (.stdinBudget n capacity)
  missing : 1 ≤ n → n ≤ capacity → buffer? = none → outcome = .error (.missingObject stdinName)
  short : 1 ≤ n → n ≤ capacity → ∀ buffer, buffer? = some buffer → buffer.length < n.toNat →
    outcome = .error (.outOfBounds 0 n.toNat buffer.length)
  /-- The literal stands for the first bytes of the buffer. -/
  text : 1 ≤ n → n ≤ capacity → ∀ buffer, buffer? = some buffer → n.toNat ≤ buffer.length →
    ∃ literal, outcome = .ok (some ⟨stdinVariable, (CType.simple "char").array capacity, none,
        .string literal⟩) ∧
      Literal.readStrings? literal = some (buffer.take n.toNat)

/-- Standard input keeps to the budget, one case after another. -/
theorem budgeted_standardInput (capacity : Nat) (buffer? : Option Bytes) (n : Int) :
    Budgeted capacity buffer? n (standardInput capacity buffer? n) := by
  have hleast : Literal.leastInteger < 0 := by decide
  -- a number within the capacity passes all checks
  have hwithin : 1 ≤ n → n ≤ capacity →
      standardInput capacity buffer? n = standardText capacity buffer? n.toNat := by
    intro hpositive hcapacity
    unfold standardInput
    rw [if_neg (by omega), if_neg (by omega), if_neg (by omega)]
  constructor
  case nothing =>
    rintro rfl
    rfl
  case least =>
    rintro rfl
    rfl
  case beyond =>
    intro hother hbeyond
    unfold standardInput
    rw [if_neg hother, if_neg (by omega), if_pos hbeyond]
  case missing =>
    rintro hpositive hcapacity rfl
    exact hwithin hpositive hcapacity
  case short =>
    rintro hpositive hcapacity buffer rfl hshort
    exact (hwithin hpositive hcapacity).trans (if_neg (by omega))
  case text =>
    rintro hpositive hcapacity buffer rfl hlong
    refine ⟨_, (hwithin hpositive hcapacity).trans (if_pos hlong), ?_⟩
    rw [Literal.readStrings?_string, Literal.stringContent, List.take_length]

/-! ### Vectors without standard input -/

namespace Assembly

variable {a : Assembly} {predicate : Option Predicate}

/-- Decoding a vector comes as far as standard input. -/
structure ReachesStdin (a : Assembly) (returnType : CType) (v : TestVector)
    (g : ObjectGraph v) : Prop where
  carries : a.carriesValues returnType v = true
  graph : ObjectGraph.build v a.registry.pointerSize = .ok g
  receiver : ∃ receiver, (receiverValues (a.decoder g.table) v a.method.receiver).outcome =
    .ok receiver
  parameters : ∃ parameters, (a.method.parameters.mapM
    (parameterValues (a.decoder g.table) v)).outcome = .ok parameters
  globals : ∃ globals, (a.method.globals.mapM (globalValues (a.decoder g.table) v)).outcome =
    .ok globals

/-- The error of standard input is that of the vector, once decoding comes so far. -/
theorem draft_of_unread {g : ObjectGraph v} (hreaches : a.ReachesStdin (a.returnType predicate) v g)
    {e : DecodeError} (h : (a.stdinIfSymbolic (a.decoder g.table) v).outcome = .error e) :
    (a.draft predicate v).outcome = .error e := by
  obtain ⟨receiver, hreceiver⟩ := hreaches.receiver
  obtain ⟨parameters, hparameters⟩ := hreaches.parameters
  obtain ⟨globals, hglobals⟩ := hreaches.globals
  -- nothing before standard input fails, and nothing after it is decoded
  have hvariables : (a.decodeVariables (a.decoder g.table) v (a.returnType predicate)).outcome =
      .error e := by
    rw [decodeVariables_eq, bind_of_ok hreceiver]
    dsimp only
    rw [bind_of_ok hparameters]
    dsimp only
    rw [bind_of_ok hglobals]
    dsimp only
    rw [bind_of_error h]
  rw [draft_eq hreaches.carries hreaches.graph, bind_of_error hvariables]

/-- A vector without standard input makes no case, whatever else is wrong with it. -/
theorem ownCase_of_unread
    (h : ∀ table, ∃ e, (a.stdinIfSymbolic (a.decoder table) v).outcome = .error e) :
    a.ownCase predicate v = none := by
  cases hown : a.ownCase predicate v with
  | none => rfl
  | some c =>
    obtain ⟨vars, returned, hmakes, -⟩ := ownCase_eq_some_iff.1 hown
    cases hmakes with
    | @intro g _ _ _ hdecoded _ =>
      -- a made case has decoded its standard input
      obtain ⟨e, he⟩ := h g.table
      rw [(decodes_of_decodeVariables hdecoded).stdin] at he
      cases he

/-- **The budget of standard input.** Let a vector record with at least eight bytes that `n` bytes
were read from standard input. Whatever the capacity is, standard input is what the budget says. If
it is an error and standard input is symbolic, the error concerns this vector: the assembly makes
the cases of the others and, if nothing fails before, warns that the vector was given up for it. -/
theorem stdin_budgeted {bytes : Bytes} (hread : v.contents? stdinReadName = some bytes)
    (hlength : 8 ≤ bytes.length) (hn : Bytes.integer true (bytes.take 8) = n) :
    (∀ d : Decoder, Budgeted d.config.stdinCapacity (v.contents? stdinName) n
      (stdinValue d v).outcome) ∧
    ∀ a : Assembly, a.method.symbolicStdin = true → ∀ table e,
      (stdinValue (a.decoder table) v).outcome = .error e → e.isCaseLocal = true ∧
      ∀ front back,
        (a.assemble (front ++ v :: back)).1 = (a.assemble (front ++ back)).1 ∧
        ∀ predicate, a.predicate? = .ok predicate →
          (∃ g, a.ReachesStdin (a.returnType predicate) v g) →
          .skippedCase a.method.name front.length e ∈ (a.assemble (front ++ v :: back)).2 := by
  refine ⟨fun d => ?_, fun a hsymbolic table e he => ?_⟩
  · rw [outcome_stdinValue hread hlength hn]
    exact budgeted_standardInput _ _ _
  -- standard input does not depend on the addresses that are known
  have hsame (table' : AddressTable) :
      (a.stdinIfSymbolic (a.decoder table') v).outcome = .error e := by
    rw [outcome_stdinValue hread hlength hn] at he
    rw [stdinIfSymbolic, if_pos hsymbolic, outcome_stdinValue hread hlength hn]
    exact he
  refine ⟨contained_stdinValue.caseLocal he, fun front back => ⟨?_, ?_⟩⟩
  · refine assemble_of_ownCase_eq_none (fun predicate _ => ?_) front back
    exact ownCase_of_unread fun table' => ⟨e, hsame table'⟩
  · rintro predicate hpredicate ⟨g, hreaches⟩
    exact skippedCase_mem_assemble hpredicate (draft_of_unread hreaches (hsame g.table)) front back

/-- A function that reads standard input. -/
def echoAssembly : Assembly where
  method := { name := "echo", symbolicStdin := true }

/-- A vector with three bytes of standard input and the number of those that were read. -/
def echoVector (count : Bytes) : TestVector where
  objects := [⟨stdinName, [0x68, 0, 0x69], [], 0x20, false⟩,
    ⟨stdinReadName, count, [], 0x30, false⟩]

/-- Two bytes are read, of which the second is zero. With 65 bytes the vector is given up, for the
capacity is 64. -/
theorem echo_stdin_budgeted :
    Bytes.integer true ([2, 0, 0, 0, 0, 0, 0, 0].take 8) = 2 ∧
    Bytes.integer true ([65, 0, 0, 0, 0, 0, 0, 0].take 8) = 65 ∧
    (∃ literal, (stdinValue (echoAssembly.decoder ∅)
        (echoVector [2, 0, 0, 0, 0, 0, 0, 0])).outcome =
          .ok (some ⟨stdinVariable, (CType.simple "char").array 64, none, .string literal⟩) ∧
        Literal.readStrings? literal = some [0x68, 0]) ∧
    ∀ front back,
      (echoAssembly.assemble (front ++ echoVector [65, 0, 0, 0, 0, 0, 0, 0] :: back)).1 =
        (echoAssembly.assemble (front ++ back)).1 ∧
      .skippedCase "echo" front.length (.stdinBudget 65 64) ∈
        (echoAssembly.assemble (front ++ echoVector [65, 0, 0, 0, 0, 0, 0, 0] :: back)).2 := by
  have htwo : Bytes.integer true ([2, 0, 0, 0, 0, 0, 0, 0].take 8) = 2 := by decide
  have hmany : Bytes.integer true ([65, 0, 0, 0, 0, 0, 0, 0].take 8) = 65 := by decide
  have hread (count : Bytes) : (echoVector count).contents? stdinReadName = some count := rfl
  -- the vector fails in nothing before
  have hreaches : echoAssembly.ReachesStdin .void (echoVector [65, 0, 0, 0, 0, 0, 0, 0])
      { table := ⟨[(0x20, stdinName), (0x30, stdinReadName)]⟩ } :=
    ⟨rfl, rfl, ⟨_, rfl⟩, ⟨_, rfl⟩, ⟨_, rfl⟩⟩
  have hwithin := (stdin_budgeted (hread _) (by decide) htwo).1 (echoAssembly.decoder ∅)
  have hbeyond := stdin_budgeted (hread _) (by decide) hmany
  obtain ⟨-, hdropped⟩ := hbeyond.2 echoAssembly rfl ∅ _
    ((hbeyond.1 (echoAssembly.decoder ∅)).beyond (by decide) (.inr (by decide)))
  refine ⟨htwo, hmany, hwithin.text (by decide) (by decide) _ rfl (by decide), fun front back => ?_⟩
  obtain ⟨hcases, hwarned⟩ := hdropped front back
  exact ⟨hcases, hwarned none rfl ⟨_, hreaches⟩⟩

/-- **An unread number.** A vector records the least number of bytes. This is a negative number, but
no error about the budget. -/
theorem exists_unread_count :
    (echoVector Predicate.leastLong).contents? stdinReadName = some Predicate.leastLong ∧
    Predicate.leastLong.length = 8 ∧
    Bytes.integer true (Predicate.leastLong.take 8) = Literal.leastInteger ∧
    Literal.leastInteger < 0 ∧
    (stdinValue (echoAssembly.decoder ∅) (echoVector Predicate.leastLong)).outcome =
      .error (.malformed "stdin read count (-9223372036854775807LL - 1)") ∧
    (stdinValue (echoAssembly.decoder ∅) (echoVector Predicate.leastLong)).outcome ≠
      .error (.stdinBudget Literal.leastInteger 64) := by
  have hread : (echoVector Predicate.leastLong).contents? stdinReadName =
      some Predicate.leastLong := rfl
  have hleast : Bytes.integer true (Predicate.leastLong.take 8) = Literal.leastInteger := by decide
  have houtcome : (stdinValue (echoAssembly.decoder ∅) (echoVector Predicate.leastLong)).outcome =
      .error (.malformed "stdin read count (-9223372036854775807LL - 1)") := by
    rw [outcome_stdinValue hread (by decide) hleast]
    rfl
  refine ⟨hread, rfl, hleast, by decide, houtcome, ?_⟩
  rw [houtcome]
  exact fun h => by cases h

end Assembly

end SymVec.TestCase

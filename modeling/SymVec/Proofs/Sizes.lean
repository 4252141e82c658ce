import SymVec.Proofs.ValueLayouts

/-!
# Sizes of types

A type is a run of arrays over something that is no array: a pointer, a function, or a base type.
Its size is the product of the lengths with the size of what the arrays hold. The product is made
from the inside out, and is checked at every array. So the length that overflows first is that of
the innermost array that is too large, also where an array around it has no elements, and what an
array holds has to be known even if it holds none of it.

* `Registry.heldSize?` — the size of what the arrays hold;
* `CType.RunsFit` — all arrays have sizes that are words;
* `Registry.sizeUnder_of_runsFit`, `Registry.sizeUnder_of_overflow` — the size of a run of arrays,
  by induction on the arrays around the innermost ones;
* `Registry.Measures` — what the size of a type can be;
* `Registry.size_exact` — the size of every type.
-/

namespace SymVec

namespace CType

/-! ### Arrays over a type -/

/-- **Leading lengths.** The lengths of the arrays before the first pointer, outermost first. -/
def lengthsBefore : List Level → List Nat
  | .array n :: inner => n :: lengthsBefore inner
  | _ => []

/-- The lengths of the arrays over what the type holds. -/
def leadingLengths (t : CType) : List Nat := lengthsBefore t.levels

/-- **Held type.** The type under the leading arrays. -/
def held (t : CType) : CType := t.under t.leadingLengths.length

/-- The lengths multiplied with each other and with the size of what is held, as an unbounded
number. -/
def totalSize (lengths : List Nat) (size : Nat) : Nat := lengths.foldr (· * ·) size

/-- **Fitting runs.** Each array has a size that is a word, with the arrays in it and with what
these hold. -/
def RunsFit (lengths : List Nat) (size : Nat) : Prop :=
  ∀ n run, n :: run <:+ lengths → totalSize (n :: run) size < Word.limit

/-- **Overflowing array.** The arrays in it have sizes that are words, and it has none. -/
structure Overflows (n : Nat) (run : List Nat) (size : Nat) : Prop where
  inner : RunsFit run size
  beyond : Word.limit ≤ totalSize (n :: run) size

/-- The arrays before the first pointer are split off. -/
theorem levels_eq_append (levels : List Level) :
    levels =
      (lengthsBefore levels).map .array ++ levels.drop (lengthsBefore levels).length ∧
    lengthsBefore (levels.drop (lengthsBefore levels).length) = [] := by
  induction levels with
  | nil => exact ⟨rfl, rfl⟩
  | cons level inner ih =>
    cases level with
    | pointer => exact ⟨rfl, rfl⟩
    | array n => exact ⟨congrArg (Level.array n :: ·) ih.1, ih.2⟩

/-- A type is its leading arrays over what it holds, and this is no array. -/
theorem levels_eq_leading (t : CType) :
    t.levels = t.leadingLengths.map .array ++ t.held.levels ∧ lengthsBefore t.held.levels = [] :=
  levels_eq_append t.levels

/-- The type under so many of the leading arrays. -/
theorem under_length_eq {t : CType} {outer lengths : List Nat}
    (h : t.leadingLengths = outer ++ lengths) :
    t.under outer.length = { t with levels := lengths.map .array ++ t.held.levels } := by
  have hlevels : t.levels.drop outer.length = lengths.map .array ++ t.held.levels := by
    rw [(levels_eq_leading t).1, h, List.map_append, List.append_assoc]
    exact List.drop_left' (List.length_map Level.array)
  rw [under, hlevels]

variable {n size : Nat} {lengths : List Nat}

theorem runsFit_nil (size : Nat) : RunsFit [] size := by
  intro n run hsuffix
  cases List.suffix_nil.1 hsuffix

/-- Arrays fit if the outermost one does and those in it do. -/
theorem runsFit_cons_iff :
    RunsFit (n :: lengths) size ↔
      totalSize (n :: lengths) size < Word.limit ∧ RunsFit lengths size := by
  constructor
  · intro h
    exact ⟨h n lengths List.suffix_rfl,
      fun m run hrun => h m run (hrun.trans (List.suffix_cons n lengths))⟩
  · rintro ⟨hwhole, hinner⟩ m run hrun
    -- a run is either the whole or lies in the arrays within
    rcases List.suffix_cons_iff.1 hrun with heq | hrun
    · rw [heq]
      exact hwhole
    · exact hinner m run hrun

/-- Arrays that do not all fit have an innermost one among them that does not. -/
theorem runsFit_or_overflows (lengths : List Nat) (size : Nat) :
    RunsFit lengths size ∨ ∃ outer n run, lengths = outer ++ n :: run ∧ Overflows n run size := by
  induction lengths with
  | nil => exact Or.inl (runsFit_nil size)
  | cons n inner ih =>
    rcases ih with hfit | ⟨outer, m, run, rfl, hover⟩
    · -- the arrays within fit, so it is the outermost one that may not
      by_cases hword : totalSize (n :: inner) size < Word.limit
      · exact Or.inl (runsFit_cons_iff.2 ⟨hword, hfit⟩)
      · exact Or.inr ⟨[], n, inner, rfl, hfit, Nat.le_of_not_lt hword⟩
    · exact Or.inr ⟨n :: outer, m, run, rfl, hover⟩

end CType

namespace Registry

open CType (RunsFit Overflows totalSize leadingLengths)

variable {r : Registry} {t : CType} {size : Nat} {rest : List Level}

/-! ### Sizes of arrays -/

/-- Arrays that fit have the product as their size. -/
theorem sizeUnder_of_runsFit {lengths : List Nat} (hrest : r.sizeUnder t rest = .ok size)
    (hfit : RunsFit lengths size) :
    r.sizeUnder t (lengths.map .array ++ rest) = .ok (totalSize lengths size) := by
  induction lengths with
  | nil => exact hrest
  | cons n lengths ih =>
    obtain ⟨hword, hinner⟩ := CType.runsFit_cons_iff.1 hfit
    have hmul : Word.mul? n (totalSize lengths size) = some (totalSize (n :: lengths) size) :=
      Word.mul?_eq_some_iff.2 ⟨hword, rfl⟩
    rw [List.map_cons, List.cons_append, sizeUnder, ih hinner]
    dsimp only [bind, Except.bind]
    rw [hmul]

/-- An array around one that has no size has none for the same reason. -/
theorem sizeUnder_of_error {levels : List Level} {e : LayoutError}
    (h : r.sizeUnder t levels = .error e) (outer : List Nat) :
    r.sizeUnder t (outer.map .array ++ levels) = .error e := by
  induction outer with
  | nil => exact h
  | cons n outer ih =>
    rw [List.map_cons, List.cons_append, sizeUnder, ih]
    rfl

/-- The innermost array that is too large is named. -/
theorem sizeUnder_of_overflow {n : Nat} {run : List Nat} (hrest : r.sizeUnder t rest = .ok size)
    (hover : Overflows n run size) (outer : List Nat) :
    r.sizeUnder t ((outer ++ n :: run).map .array ++ rest) =
      .error (.sizeOverflow
        { t with levels := (n :: run).map Level.array ++ rest }.displayName) := by
  have hmul : Word.mul? n (totalSize run size) = none := if_neg (Nat.not_lt.2 hover.beyond)
  -- the arrays around it pass its error on
  rw [List.map_append, List.append_assoc]
  refine sizeUnder_of_error ?_ outer
  rw [List.map_cons, List.cons_append, sizeUnder, sizeUnder_of_runsFit hrest hover.inner]
  dsimp only [bind, Except.bind]
  rw [hmul]

/-! ### What arrays hold -/

/-- **Held size.** The size of what the leading arrays of a type hold, if it is known. -/
def heldSize? (r : Registry) (t : CType) : Option Nat :=
  match r.kindOf t.held with
  | .objectPointer | .functionPointer => some r.pointerSize
  | .primitive => t.primitive?.map (·.size)
  | .struct | .union => (r.recordOf t.held).toOption.map (·.size)
  | .enumeration => (r.enumerationOf t.held).toOption.map (·.size)
  | .array | .unknown => none

theorem sizeUnder_held (r : Registry) (t : CType) :
    r.sizeUnder t t.held.levels = r.sizeOf t.held :=
  (r.sizeUnder_under t t.leadingLengths.length t.held.levels).symm

/-- What has a base type that is not known is named without its arrays. -/
theorem eq_unknownType_of_baseSize {e : LayoutError} (h : r.baseSize t = .error e) :
    e = .unknownType { t with levels := [] }.displayName := by
  unfold baseSize at h
  repeat' split at h
  all_goals cases h
  rfl

/-- A type of which the arrays hold something known has this size under them. -/
theorem sizeOf_held_of_ne_unknown (h : r.kindOf t.held ≠ .unknown) :
    ∃ size, r.heldSize? t = some size ∧ r.sizeOf t.held = .ok size := by
  obtain ⟨-, hrest⟩ := CType.levels_eq_leading t
  cases hlevels : t.held.levels with
  | cons level inner =>
    cases level with
    | array n =>
      -- the leading arrays have been taken off
      rw [hlevels] at hrest
      cases hrest
    | pointer =>
      have hkind : r.kindOf t.held = .objectPointer := by rw [kindOf, hlevels]
      exact ⟨r.pointerSize, by rw [heldSize?, hkind], sizeOf_of_objectPointer hkind⟩
  | nil =>
    -- without levels the base type decides, and only an unknown one has no size
    rcases r.base_cases hlevels with ⟨-, hkind, hsize⟩ | ⟨p, hp, hkind, hsize⟩ |
      ⟨record, hof, hrecord, hsize⟩ | ⟨e, hof, hkind, hsize⟩ | ⟨hunknown, -⟩
    · exact ⟨_, by rw [heldSize?, hkind], hsize⟩
    · have hbase : t.primitive? = some p := hp
      exact ⟨_, by rw [heldSize?, hkind, hbase, Option.map_some], hsize⟩
    · refine ⟨record.size, ?_, hsize⟩
      rcases hrecord with hkind | hkind <;> rw [heldSize?, hkind, hof] <;> rfl
    · exact ⟨e.size, by rw [heldSize?, hkind, hof]; rfl, hsize⟩
    · exact absurd hunknown h

/-- A type of which the arrays hold something unknown. -/
theorem sizeOf_held_of_unknown (h : r.kindOf t.held = .unknown) :
    r.heldSize? t = none ∧ r.sizeOf t.held = .error (.unknownType t.held.displayName) := by
  have hlevels : t.held.levels = [] := levels_of_kindOf h (by decide) (by decide)
  -- the error names the type without its levels, and it has none
  have hself : { t.held with levels := [] } = t.held := by rw [← hlevels]
  refine ⟨by rw [heldSize?, h], ?_⟩
  have hcases := r.base_cases hlevels
  obtain ⟨e, he⟩ : ∃ e, r.sizeOf t.held = .error e := by simpa [IsRecord, h] using hcases
  have hbase : r.baseSize t.held = .error e := by rwa [sizeOf, hlevels, sizeUnder] at he
  rw [he, eq_unknownType_of_baseSize hbase, hself]

/-! ### Sizes of types -/

/-- A type is measured by its leading arrays over what they hold. -/
theorem sizeOf_eq_sizeUnder (r : Registry) (t : CType) :
    r.sizeOf t = r.sizeUnder t (t.leadingLengths.map .array ++ t.held.levels) :=
  congrArg (r.sizeUnder t) (CType.levels_eq_leading t).1

section Arrays

variable (hheld : r.heldSize? t = some size)

include hheld

/-- What has a held size is measured with it. -/
theorem sizeOf_held_of_heldSize? : r.sizeUnder t t.held.levels = .ok size := by
  rw [sizeUnder_held]
  -- a held size says that what is held is known
  have hknown : r.kindOf t.held ≠ .unknown := by
    intro hunknown
    rw [(sizeOf_held_of_unknown hunknown).1] at hheld
    cases hheld
  obtain ⟨found, hfound, hsize⟩ := sizeOf_held_of_ne_unknown hknown
  obtain rfl : found = size := Option.some.inj (hfound.symm.trans hheld)
  exact hsize

/-- Where all arrays fit, the size is the product. -/
theorem sizeOf_of_runsFit (hfit : RunsFit t.leadingLengths size) :
    r.sizeOf t = .ok (totalSize t.leadingLengths size) := by
  rw [sizeOf_eq_sizeUnder]
  exact sizeUnder_of_runsFit (sizeOf_held_of_heldSize? hheld) hfit

/-- Where one does not, it is named with the arrays in it. -/
theorem sizeOf_of_overflows {outer run : List Nat} {n : Nat}
    (hlengths : t.leadingLengths = outer ++ n :: run) (hover : Overflows n run size) :
    r.sizeOf t = .error (.sizeOverflow (t.under outer.length).displayName) := by
  rw [sizeOf_eq_sizeUnder, hlengths, CType.under_length_eq hlengths]
  exact sizeUnder_of_overflow (sizeOf_held_of_heldSize? hheld) hover outer

end Arrays

theorem sizeOf_of_unknown (h : r.kindOf t.held = .unknown) :
    r.sizeOf t = .error (.unknownType t.held.displayName) := by
  rw [sizeOf_eq_sizeUnder]
  exact sizeUnder_of_error ((sizeUnder_held r t).trans (sizeOf_held_of_unknown h).2) _

/-- **Measure** of a type, by its leading arrays and what they hold. -/
inductive Measures (r : Registry) (t : CType) : Except LayoutError Nat → Prop
  /-- All arrays have sizes that are words, and the size is the product. -/
  | product {size : Nat} (held : r.heldSize? t = some size)
      (fit : RunsFit t.leadingLengths size) :
      Measures r t (.ok (totalSize t.leadingLengths size))
  /-- The innermost array is named that is too large. -/
  | overflow {size n : Nat} {outer run : List Nat} (held : r.heldSize? t = some size)
      (lengths : t.leadingLengths = outer ++ n :: run) (tooLarge : Overflows n run size) :
      Measures r t (.error (.sizeOverflow (t.under outer.length).displayName))
  /-- What the arrays hold is named, since it is not known. -/
  | unknown (kind : r.kindOf t.held = .unknown) :
      Measures r t (.error (.unknownType t.held.displayName))

/-- The size of a type is a measure of it. -/
theorem measures_sizeOf (r : Registry) (t : CType) : r.Measures t (r.sizeOf t) := by
  -- an unknown base comes first, as no array over it is multiplied
  by_cases hunknown : r.kindOf t.held = .unknown
  · rw [sizeOf_of_unknown hunknown]
    exact .unknown hunknown
  · obtain ⟨size, hheld, -⟩ := sizeOf_held_of_ne_unknown hunknown
    rcases CType.runsFit_or_overflows t.leadingLengths size with hfit |
      ⟨outer, n, run, hlengths, hover⟩
    · rw [sizeOf_of_runsFit hheld hfit]
      exact .product hheld hfit
    · rw [sizeOf_of_overflows hheld hlengths hover]
      exact .overflow hheld hlengths hover

/-- **Sizes are exact.** A type has a size where its leading arrays hold something known and each of
them has a size that is a word, and then its size is the product of unbounded numbers. Else the
innermost array is named that is too large, or what the arrays hold if this is not known. -/
theorem size_exact (r : Registry) (t : CType) (result : Except LayoutError Nat) :
    r.sizeOf t = result ↔ r.Measures t result := by
  constructor
  · rintro rfl
    exact measures_sizeOf r t
  · intro h
    cases h with
    | product held fit => exact sizeOf_of_runsFit held fit
    | overflow held lengths tooLarge => exact sizeOf_of_overflows held lengths tooLarge
    | unknown kind => exact sizeOf_of_unknown kind

/-- A row of pointers. -/
def pointerRow (n : Nat) : CType := CType.int.pointer.array n

/-- The longest row of pointers has a size. With one pointer more it has none, also as the element
of an array without elements. Nor has an array of something unknown. -/
theorem pointer_rows_size_exact :
    (default : Registry).sizeOf (pointerRow 0x1fffffffffffffff) = .ok 0xfffffffffffffff8 ∧
    (default : Registry).sizeOf ((pointerRow 0x2000000000000000).array 0) =
      .error (.sizeOverflow (pointerRow 0x2000000000000000).displayName) ∧
    (default : Registry).sizeOf (((CType.simple "missing").array 7).array 0) =
      .error (.unknownType "missing") := by
  have hproduct : (default : Registry).Measures (pointerRow 0x1fffffffffffffff)
      (.ok (totalSize [0x1fffffffffffffff] 8)) :=
    .product rfl (CType.runsFit_cons_iff.2 ⟨by decide, CType.runsFit_nil 8⟩)
  have htotal : totalSize [0x1fffffffffffffff] 8 = 0xfffffffffffffff8 := rfl
  have hlengths : ((pointerRow 0x2000000000000000).array 0).leadingLengths =
      [0] ++ [0x2000000000000000] := rfl
  -- the row is too long, and the array of none around it does not hide this
  have hoverflow := Measures.overflow (rfl : (default : Registry).heldSize? _ = some 8) hlengths
    ⟨CType.runsFit_nil 8, by decide⟩
  have hrow : ((pointerRow 0x2000000000000000).array 0).under [0].length =
      pointerRow 0x2000000000000000 := rfl
  rw [htotal] at hproduct
  rw [hrow] at hoverflow
  exact ⟨(size_exact _ _ _).2 hproduct, (size_exact _ _ _).2 hoverflow,
    (size_exact _ _ _).2 (.unknown rfl)⟩

end Registry

end SymVec

/-!
# Catalogs

A catalog holds at most one entry for each name, in increasing order of the names. An entry carries
its own name, and adding a second entry of a name replaces the first.

Strings are ordered by code points, which is the order of their UTF-8 bytes.

* `Catalog.find?_insert` — a lookup answers the last entry added under the name;
* `Catalog.ext_find?` — a catalog is determined by its lookups;
* `Catalog.ofList_toList` — reading a catalog back from its entries gives the same catalog.
-/

namespace SymVec

/-- Entries in strictly increasing order of their names, where `key` reads the name of an entry. -/
structure Catalog {α : Type} (key : α → String) where
  toList : List α
  increasing : toList.Pairwise fun a b => key a < key b

namespace Catalog

variable {α : Type} {key : α → String}

/-- The entry `x` put at its place in a list, instead of an entry of the same name. -/
def place (key : α → String) (x : α) : List α → List α
  | [] => [x]
  | y :: ys =>
    if key x < key y then x :: y :: ys
    else if key x = key y then x :: ys
    else y :: place key x ys

/-- Putting an entry at its place adds no other entry. -/
theorem eq_or_mem_of_mem_place {x z : α} {ys : List α} (h : z ∈ place key x ys) :
    z = x ∨ z ∈ ys := by
  induction ys with
  | nil => simpa [place] using h
  | cons y ys ih =>
    unfold place at h
    split at h
    · simpa using h
    · split at h
      · simp only [List.mem_cons] at h ⊢
        exact h.imp id Or.inr
      · simp only [List.mem_cons] at h ⊢
        rcases h with h | h
        · exact Or.inr (Or.inl h)
        · exact (ih h).imp id Or.inr

/-- Names are ordered totally. -/
theorem lt_of_not_lt_of_ne {a b : String} (h : ¬a < b) (hne : a ≠ b) : b < a := by
  rcases String.le_total b a with hle | hle
  · by_cases hlt : b < a
    · exact hlt
    · exact absurd (String.le_antisymm (String.not_lt.1 hlt) hle) hne
  · exact absurd (String.le_antisymm hle (String.not_lt.1 h)) hne

/-- An entry put at its place keeps the names increasing. -/
theorem increasing_place {x : α} {ys : List α} (h : ys.Pairwise fun a b => key a < key b) :
    (place key x ys).Pairwise fun a b => key a < key b := by
  induction ys with
  | nil => simp [place]
  | cons y ys ih =>
    obtain ⟨hy, hys⟩ := List.pairwise_cons.1 h
    unfold place
    split
    case isTrue hlt =>
      -- `x` comes first, below all others
      refine List.pairwise_cons.2 ⟨fun z hz => ?_, h⟩
      rcases List.mem_cons.1 hz with rfl | hz
      · exact hlt
      · exact String.lt_trans hlt (hy z hz)
    case isFalse hnlt =>
      split
      case isTrue heq =>
        -- `x` takes the place of its namesake
        exact List.pairwise_cons.2 ⟨fun z hz => heq ▸ hy z hz, hys⟩
      case isFalse hne =>
        -- `x` belongs further back, above `y`
        refine List.pairwise_cons.2 ⟨fun z hz => ?_, ih hys⟩
        rcases eq_or_mem_of_mem_place hz with rfl | hz
        · exact lt_of_not_lt_of_ne hnlt hne
        · exact hy z hz

/-- The catalog without entries. -/
def empty : Catalog key := ⟨[], List.Pairwise.nil⟩

instance : EmptyCollection (Catalog key) := ⟨empty⟩

instance : Inhabited (Catalog key) := ⟨empty⟩

/-- The entry `x` added, instead of an earlier entry of its name. -/
def insert (c : Catalog key) (x : α) : Catalog key :=
  ⟨place key x c.toList, increasing_place c.increasing⟩

/-- The entry with exactly this name. -/
def find? (c : Catalog key) (name : String) : Option α :=
  c.toList.find? fun x => key x = name

/-- The number of entries. -/
def size (c : Catalog key) : Nat := c.toList.length

/-- The entries of a list, of which a later one replaces an earlier one of its name. -/
def ofList (xs : List α) : Catalog key := xs.foldl insert empty

/-- A catalog is its entries. -/
@[ext]
theorem ext {c d : Catalog key} (h : c.toList = d.toList) : c = d := by
  cases c
  cases d
  simp_all

/-- Nothing is found without entries. -/
@[simp]
theorem find?_empty (name : String) : (empty : Catalog key).find? name = none := rfl

/-- In a list in which a new entry has been put at its place, it is found under its name, and the
others are found as before. -/
theorem find?_place {x : α} {ys : List α} (h : ys.Pairwise fun a b => key a < key b)
    (name : String) :
    (place key x ys).find? (fun z => key z = name) =
      if key x = name then some x else ys.find? fun z => key z = name := by
  induction ys with
  | nil => by_cases hx : key x = name <;> simp [place, hx]
  | cons y ys ih =>
    obtain ⟨hy, hys⟩ := List.pairwise_cons.1 h
    unfold place
    split
    case isTrue hlt => by_cases hx : key x = name <;> simp [hx]
    case isFalse hnlt =>
      split
      case isTrue heq =>
        by_cases hx : key x = name
        · simp [hx]
        · -- the namesake that was replaced does not have the name looked for
          have : key y ≠ name := fun hy => hx (heq.trans hy)
          simp [hx, this]
      case isFalse hne =>
        by_cases hx : key x = name
        · have : key y ≠ name := fun hy => hne (hx.trans hy.symm)
          rw [List.find?_cons_of_neg (by simpa using this), ih hys, if_pos hx, if_pos hx]
        · rw [List.find?_cons, List.find?_cons, ih hys, if_neg hx, if_neg hx]

/-- A lookup answers the last entry added under the name. -/
theorem find?_insert (c : Catalog key) (x : α) (name : String) :
    (c.insert x).find? name = if key x = name then some x else c.find? name :=
  find?_place c.increasing name

/-- What is found under a name has that name. -/
theorem key_of_find? {c : Catalog key} {name : String} {x : α} (h : c.find? name = some x) :
    key x = name := by
  simpa using List.find?_some h

/-- The entries are what is found under their own names. -/
theorem mem_iff_find? {c : Catalog key} {x : α} : x ∈ c.toList ↔ c.find? (key x) = some x := by
  constructor
  · -- names increase, so nothing before the entry has its name
    have general : ∀ ys : List α, (ys.Pairwise fun a b => key a < key b) → x ∈ ys →
        ys.find? (fun z => key z = key x) = some x := by
      intro ys
      induction ys with
      | nil => simp
      | cons y ys ih =>
        intro h hx
        obtain ⟨hy, hys⟩ := List.pairwise_cons.1 h
        rcases List.mem_cons.1 hx with rfl | hx
        · simp
        · have : key y ≠ key x := fun heq => String.lt_irrefl _ (heq ▸ hy x hx)
          rw [List.find?_cons_of_neg (by simpa using this)]
          exact ih hys hx
    exact general c.toList c.increasing
  · exact fun h => List.mem_of_find?_eq_some h

/-- Two increasing lists with the same members are equal. -/
theorem eq_of_mem_iff {xs ys : List α} (hxs : xs.Pairwise fun a b => key a < key b)
    (hys : ys.Pairwise fun a b => key a < key b) (h : ∀ z, z ∈ xs ↔ z ∈ ys) : xs = ys := by
  induction xs generalizing ys with
  | nil =>
    cases ys with
    | nil => rfl
    | cons y ys => exact absurd ((h y).2 (by simp)) (by simp)
  | cons x xs ih =>
    cases ys with
    | nil => exact absurd ((h x).1 (by simp)) (by simp)
    | cons y ys =>
      obtain ⟨hx, hxtail⟩ := List.pairwise_cons.1 hxs
      obtain ⟨hy, hytail⟩ := List.pairwise_cons.1 hys
      -- each head is the least member of its list
      have heads : x = y := by
        rcases List.mem_cons.1 ((h x).1 (by simp)) with heq | hmem
        · exact heq
        · rcases List.mem_cons.1 ((h y).2 (by simp)) with heq | hmem'
          · exact heq.symm
          · exact absurd (hy x hmem) (String.lt_asymm (hx y hmem'))
      subst heads
      congr 1
      refine ih hxtail hytail fun z => ⟨fun hz => ?_, fun hz => ?_⟩
      · rcases List.mem_cons.1 ((h z).1 (by simp [hz])) with rfl | hz'
        · exact absurd (hx z hz) (String.lt_irrefl _)
        · exact hz'
      · rcases List.mem_cons.1 ((h z).2 (by simp [hz])) with rfl | hz'
        · exact absurd (hy z hz) (String.lt_irrefl _)
        · exact hz'

/-- A catalog is determined by its lookups. -/
theorem ext_find? {c d : Catalog key} (h : ∀ name, c.find? name = d.find? name) : c = d := by
  apply ext
  refine eq_of_mem_iff c.increasing d.increasing fun z => ?_
  rw [mem_iff_find?, mem_iff_find?, h]

/-- Of entries that are added one after another, the last of a name is found. -/
theorem find?_foldl_insert (xs : List α) (c : Catalog key) (name : String) :
    (xs.foldl insert c).find? name =
      (xs.reverse.find? fun x => key x = name).or (c.find? name) := by
  induction xs generalizing c with
  | nil => simp
  | cons x xs ih =>
    rw [List.foldl_cons, ih, find?_insert, List.reverse_cons, List.find?_append]
    by_cases hx : key x = name <;> simp [hx]

/-- A lookup answers the last entry of the list under the name. -/
theorem find?_ofList (xs : List α) (name : String) :
    (ofList xs : Catalog key).find? name = xs.reverse.find? fun x => key x = name := by
  simp [ofList, find?_foldl_insert]

/-- Reading a catalog back from its entries gives the same catalog. -/
theorem ofList_toList (c : Catalog key) : ofList c.toList = c := by
  apply ext_find?
  intro name
  rw [find?_ofList]
  cases hfind : c.find? name with
  | none =>
    rw [find?, List.find?_eq_none] at hfind
    rw [List.find?_eq_none]
    simpa using hfind
  | some x =>
    have hkey := key_of_find? hfind
    have hmem : x ∈ c.toList := mem_iff_find?.2 (hkey ▸ hfind)
    cases hrev : c.toList.reverse.find? (fun x => key x = name) with
    | none =>
      rw [List.find?_eq_none] at hrev
      exact absurd hkey (by simpa using hrev x (by simpa using hmem))
    | some y =>
      -- an entry of the same name in the same catalog is the same entry
      have hy : key y = name := by simpa using List.find?_some hrev
      have hymem : y ∈ c.toList := by simpa using List.mem_of_find?_eq_some hrev
      have := mem_iff_find?.1 hymem
      rw [hy, hfind] at this
      exact this.symm

end Catalog

end SymVec

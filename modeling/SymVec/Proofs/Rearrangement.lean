import Mathlib.Data.Set.Function
import Mathlib.Logic.Equiv.Basic
import Mathlib.Logic.Equiv.Fin.Basic
import SymVec.Proofs.AliasResolution
import SymVec.Proofs.BreadthFirst
import SymVec.Proofs.KnownAddresses

/-!
# Rearranged vectors

The objects of a test vector can be listed in another order, with the numbers in their pointers
changed accordingly. Then pointers are met in another order, and discovered objects get other names.
Nothing else changes on a consistent vector: the same addresses are known, the search finds the same
objects in the same order, and they are declared with the same types, roots and values.

The search does not depend on the order of the objects because it follows the pointers of each
object in their own order. Everything it does on the one vector is carried to the other by the
rearrangement of the numbers, one visit after another.

* `TestVector.Rearranges` — a vector with its objects in another order;
* `TestVector.rearranges_permute` — each permutation of the objects gives one;
* `ObjectGraph.edgesFrom_rearranged` — each object holds the same pointers in the same order;
* `ObjectGraph.rename_bijOn` — the names of discovered objects correspond one to one;
* `LazySearch.search_rearranged` — the search finds the same;
* `LazySearch.declarations_rearranged` — the same objects are declared.
-/

namespace SymVec

/-- **Rearrangement.** The object of number `i` in the one vector has number `π i` in the other,
where it is the same, except that its pointers lead to the new numbers of their objects. -/
structure TestVector.Rearranges (v w : TestVector) (π : v.Index ≃ w.Index) : Prop where
  name : ∀ i, (w.object (π i)).name = (v.object i).name
  bytes : ∀ i, (w.object (π i)).bytes = (v.object i).bytes
  address : ∀ i, (w.object (π i)).address = (v.object i).address
  markedLazy : ∀ i, (w.object (π i)).markedLazy = (v.object i).markedLazy
  slots : ∀ i, List.Forall₂ (fun s s' => s'.offset = s.offset ∧
    ∃ target : v.Index, target.val = s.index ∧ (π target).val = s'.index)
    (v.object i).slots (w.object (π i)).slots

/-- An edge under other numbers of its objects. -/
def Edge.map {v w : TestVector} (π : v.Index → w.Index) (e : Edge v) : Edge w :=
  ⟨π e.owner, e.offset, π e.target⟩

/-- A visit under the other number of its object. -/
def Visit.map {v w : TestVector} (π : v.Index → w.Index) (visit : Visit v) : Visit w :=
  ⟨π visit.object, visit.type, visit.root⟩

/-! ### Permutations of the objects -/

/-- The object with other numbers in its pointers. -/
def MemoryObject.renumber (f : Nat → Nat) (o : MemoryObject) : MemoryObject :=
  { o with slots := o.slots.map fun s => ⟨s.offset, f s.index⟩ }

namespace TestVector

/-- The number of an object after a permutation. A number of no object stays. -/
def renumbered (v : TestVector) (σ : Equiv.Perm v.Index) (k : Nat) : Nat :=
  if h : k < v.objects.length then (σ ⟨k, h⟩).val else k

/-- The vector with its objects permuted. -/
def permute (v : TestVector) (σ : Equiv.Perm v.Index) : TestVector :=
  { v with objects := v.indices.map fun i => (v.object (σ.symm i)).renumber (v.renumbered σ) }

theorem length_permute (v : TestVector) (σ : Equiv.Perm v.Index) :
    (v.permute σ).objects.length = v.objects.length := by
  rw [permute, List.length_map, indices, List.length_finRange]

/-- The permutation as a map to the numbers of the permuted vector. -/
def permutation (v : TestVector) (σ : Equiv.Perm v.Index) : v.Index ≃ (v.permute σ).Index :=
  σ.trans (finCongr (v.length_permute σ).symm)

/-- The object at the new number is the old one, with new numbers in its pointers. -/
theorem object_permute (v : TestVector) (σ : Equiv.Perm v.Index) (i : v.Index) :
    (v.permute σ).object (v.permutation σ i) = (v.object i).renumber (v.renumbered σ) := by
  have hget (k : (v.permute σ).Index) : (v.permute σ).object k =
      (v.object (σ.symm (Fin.cast (v.length_permute σ) k))).renumber (v.renumbered σ) := by
    rw [object, List.get_eq_getElem]
    simp only [permute, List.getElem_map]
    -- the numbers are listed in order, so the one at place `k` is `k`
    congr 3
    exact List.getElem_finRange _
  have hback : Fin.cast (v.length_permute σ) (v.permutation σ i) = σ i := rfl
  rw [hget, hback, σ.symm_apply_apply]

/-- **Permutations rearrange.** The objects of a vector, all of whose pointers lead to an object,
may be permuted in any way. -/
theorem rearranges_permute {v : TestVector}
    (h : ∀ i, ∀ s ∈ (v.object i).slots, s.index < v.objects.length) (σ : Equiv.Perm v.Index) :
    v.Rearranges (v.permute σ) (v.permutation σ) where
  name i := by rw [object_permute]; rfl
  bytes i := by rw [object_permute]; rfl
  address i := by rw [object_permute]; rfl
  markedLazy i := by rw [object_permute]; rfl
  slots i := by
    rw [object_permute]
    refine List.forall₂_map_right_iff.2 (List.forall₂_same.2 fun s hs => ?_)
    -- the pointer leads to an object, so its number is really exchanged
    refine ⟨rfl, ⟨s.index, h i s hs⟩, rfl, ?_⟩
    rw [renumbered, dif_pos (h i s hs)]
    rfl

end TestVector

/-! ### Lists in step -/

/-- What is in the second of two lists in step has its partner in the first. -/
theorem exists_of_mem_right {α β : Type} {R : α → β → Prop} {xs : List α} {ys : List β}
    (h : List.Forall₂ R xs ys) {y : β} (hy : y ∈ ys) : ∃ x ∈ xs, R x y := by
  induction h with
  | nil => cases hy
  | cons hfirst _ ih =>
    rcases List.mem_cons.1 hy with rfl | hy
    · exact ⟨_, List.mem_cons_self, hfirst⟩
    · obtain ⟨x, hx, hxy⟩ := ih hy
      exact ⟨x, List.mem_cons_of_mem _ hx, hxy⟩

/-- What is kept of two lists in step is in step, if both keep the same places. -/
theorem forall₂_filter {α β : Type} {R : α → β → Prop} {p : α → Bool} {q : β → Bool}
    {xs : List α} {ys : List β} (h : List.Forall₂ R xs ys) (hkeep : ∀ x y, R x y → p x = q y) :
    List.Forall₂ R (xs.filter p) (ys.filter q) := by
  induction h with
  | nil => exact .nil
  | @cons x y _ _ hxy _ ih =>
    rw [List.filter_cons, List.filter_cons, hkeep x y hxy]
    -- both lists keep this place or neither does
    split
    · exact .cons hxy ih
    · exact ih

namespace TestVector.Rearranges

variable {v w : TestVector} {π : v.Index ≃ w.Index} {pointerSize : Nat}

theorem isLazy (h : v.Rearranges w π) (i : v.Index) :
    (w.object (π i)).isLazy = (v.object i).isLazy := by
  rw [MemoryObject.isLazy, MemoryObject.isLazy, h.markedLazy, h.name]

/-- A rearranged vector is as consistent. -/
theorem consistent (h : v.Rearranges w π) (hv : v.Consistent pointerSize) :
    w.Consistent pointerSize where
  address_injective i j hij := by
    obtain ⟨i, rfl⟩ := π.surjective i
    obtain ⟨j, rfl⟩ := π.surjective j
    rw [h.address, h.address] at hij
    rw [hv.address_injective i j hij]
  address_ne_zero i := by
    obtain ⟨i, rfl⟩ := π.surjective i
    rw [h.address]
    exact hv.address_ne_zero i
  stored i slot' hslot' := by
    obtain ⟨i, rfl⟩ := π.surjective i
    -- the pointer is one of the same object in the other vector
    obtain ⟨slot, hslot, hoffset, k, hk, hk'⟩ := exists_of_mem_right (h.slots i) hslot'
    obtain ⟨target, htarget, hstored⟩ := hv.stored i slot hslot
    obtain rfl : target = k := Fin.ext (htarget.trans hk.symm)
    refine ⟨π target, hk', ?_⟩
    rw [h.bytes, h.address, hoffset]
    exact hstored

end TestVector.Rearranges

namespace ObjectGraph

variable {v w : TestVector} {π : v.Index ≃ w.Index} {pointerSize : Nat}
  {g : ObjectGraph v} {g' : ObjectGraph w}

/-! ### Pointers of an object -/

/-- The scan adds the edges of the pointers in their order. -/
theorem edges_foldlM {held : List (v.Index × Slot)} {g g' : ObjectGraph v}
    (h : held.foldlM (extend pointerSize) g = .ok g') :
    ∃ added, g'.edges = g.edges ++ added ∧ List.Forall₂ IsEdgeOf added held := by
  induction held generalizing g with
  | nil =>
    cases h
    exact ⟨[], (List.append_nil _).symm, .nil⟩
  -- an error ends the scan, so each step has made its edge
  | cons s rest ih =>
    rw [List.foldlM_cons] at h
    cases hs : extend pointerSize g s with
    | error e => simp [hs, bind, Except.bind] at h
    | ok g₁ =>
      rw [hs] at h
      obtain ⟨hindex, hedges⟩ := edges_extend hs
      obtain ⟨added, hadded, hall⟩ := ih h
      refine ⟨⟨s.1, s.2.offset, ⟨s.2.index, hindex⟩⟩ :: added, ?_, .cons ⟨rfl, rfl, rfl⟩ hall⟩
      rw [hadded, hedges, List.append_assoc, List.singleton_append]

/-- The pointers of an object among all pointers of the vector. -/
theorem slots_filter (v : TestVector) (i : v.Index) :
    v.slots.filter (fun held => held.1 = i) = (v.object i).slots.map fun s => (i, s) := by
  -- the scan lists the objects once each, which a general list need not
  have general : ∀ xs : List v.Index, xs.Nodup →
      (xs.flatMap fun j => (v.object j).slots.map fun s => (j, s)).filter (fun held => held.1 = i) =
        if i ∈ xs then (v.object i).slots.map fun s => (i, s) else [] := by
    intro xs
    induction xs with
    | nil => simp
    | cons j rest ih =>
      intro hnodup
      obtain ⟨hfresh, hrest⟩ := List.nodup_cons.1 hnodup
      rw [List.flatMap_cons, List.filter_append, ih hrest]
      by_cases hji : j = i
      · -- all pointers of the object are kept, and it does not come again
        subst hji
        simp [hfresh]
      · have hij : i ≠ j := fun heq => hji heq.symm
        simp [hji, hij]
  rw [TestVector.slots, general v.indices (List.nodup_finRange _), if_pos (v.mem_indices i)]

/-- The pointers that an object holds, as edges. -/
theorem edgesFrom_build (h : build v pointerSize = .ok g) (i : v.Index) :
    List.Forall₂ (fun e s => IsEdgeOf e (i, s)) (g.edgesFrom i) (v.object i).slots := by
  obtain ⟨added, hadded, hall⟩ := edges_foldlM h
  have hedges : g.edges = added := hadded
  -- the filter for the owner leaves two lists that are still in step
  have hown := forall₂_filter (p := fun e => decide (e.owner = i))
    (q := fun held => decide (held.1 = i)) hall fun e held he => by rw [he.1]
  rw [← hedges, slots_filter, List.forall₂_map_right_iff] at hown
  exact hown

/-- **The same pointers.** Each object of the rearranged vector holds the same pointers in the same
order, under the new numbers. -/
theorem edgesFrom_rearranged (h : v.Rearranges w π) (hg : build v pointerSize = .ok g)
    (hg' : build w pointerSize = .ok g') (i : v.Index) :
    g'.edgesFrom (π i) = (g.edgesFrom i).map (Edge.map π) := by
  -- both lists of edges are in step with the slots, so they are compared slot by slot
  have general : ∀ {slots slots' : List Slot}, List.Forall₂ (fun s s' => s'.offset = s.offset ∧
      ∃ target : v.Index, target.val = s.index ∧ (π target).val = s'.index) slots slots' →
      ∀ {edges : List (Edge v)} {edges' : List (Edge w)},
        List.Forall₂ (fun e s => IsEdgeOf e (i, s)) edges slots →
        List.Forall₂ (fun e s => IsEdgeOf e (π i, s)) edges' slots' →
          edges' = edges.map (Edge.map π) := by
    intro slots slots' hslots
    induction hslots with
    | nil =>
      intro edges edges' hedges hedges'
      cases hedges
      cases hedges'
      rfl
    | cons hslot _ ih =>
      intro edges edges' hedges hedges'
      obtain ⟨hoffset, target, htarget, htarget'⟩ := hslot
      cases hedges with
      | @cons e _ _ _ he hedges =>
        cases hedges' with
        | @cons e' _ _ _ he' hedges' =>
          rw [List.map_cons, ih hedges hedges']
          congr 1
          obtain ⟨owner, offset, target'⟩ := e
          obtain ⟨howner, heq, hindex⟩ := he
          obtain ⟨howner', heq', hindex'⟩ := he'
          -- both lead to the object of the number that the slot has
          obtain rfl : target = target' := Fin.ext (htarget.trans hindex.symm)
          cases e'
          simp only [Edge.map, Edge.mk.injEq]
          exact ⟨howner'.trans (congrArg π howner.symm), heq'.trans (hoffset.trans heq.symm),
            Fin.ext (hindex'.trans htarget'.symm)⟩
  exact general (h.slots i) (edgesFrom_build hg i) (edgesFrom_build hg' (π i))

/-- The same pointers lead to an object. -/
theorem entered_rearranged (h : v.Rearranges w π) (hg : build v pointerSize = .ok g)
    (hg' : build w pointerSize = .ok g') (i : v.Index) :
    (∃ e ∈ g'.edges, e.target = π i) ↔ ∃ e ∈ g.edges, e.target = i := by
  constructor
  · rintro ⟨e', he', htarget⟩
    obtain ⟨owner, howner⟩ := π.surjective e'.owner
    have hmem : e' ∈ g'.edgesFrom (π owner) := mem_edgesFrom.2 ⟨he', howner.symm⟩
    rw [edgesFrom_rearranged h hg hg'] at hmem
    obtain ⟨e, he, rfl⟩ := List.mem_map.1 hmem
    exact ⟨e, (mem_edgesFrom.1 he).1, π.injective htarget⟩
  · rintro ⟨e, he, rfl⟩
    have hmem : e.map π ∈ g'.edgesFrom (π e.owner) := by
      rw [edgesFrom_rearranged h hg hg']
      exact List.mem_map_of_mem (mem_edgesFrom.2 ⟨he, rfl⟩)
    exact ⟨e.map π, (mem_edgesFrom.1 hmem).1, rfl⟩

/-! ### Names -/

/-- An object has a name in both graphs or in neither, since it has one if a pointer enters it or if
it is declared. -/
theorem isNamed_rearranged (h : v.Rearranges w π) (hg : build v pointerSize = .ok g)
    (hg' : build w pointerSize = .ok g') (i : v.Index) :
    g'.isNamed (π i) = true ↔ g.isNamed i = true := by
  rw [isNamed_iff_entered (wellNamed_build hg'), isNamed_iff_entered (wellNamed_build hg),
    h.isLazy, entered_rearranged h hg hg']

/-- The same objects are discovered. -/
theorem mem_discovered_rearranged (h : v.Rearranges w π) (hg : build v pointerSize = .ok g)
    (hg' : build w pointerSize = .ok g') (i : v.Index) :
    π i ∈ g'.discovered ↔ i ∈ g.discovered := by
  -- the discovered objects are the lazy ones that have a name
  have hlazy {v : TestVector} {g : ObjectGraph v} (hg : WellNamed g) (i : v.Index) :
      i ∈ g.discovered ↔ (v.object i).isLazy = true ∧ g.isNamed i = true := by
    constructor
    · intro hi
      exact ⟨hg.isLazy_of_mem i hi, isNamed_iff.2 (Or.inr hi)⟩
    · rintro ⟨hi, hnamed⟩
      rcases isNamed_iff.1 hnamed with hdeclared | hfound
      · rw [hi] at hdeclared
        cases hdeclared
      · exact hfound
  rw [hlazy (wellNamed_build hg'), hlazy (wellNamed_build hg), h.isLazy,
    isNamed_rearranged h hg hg']

/-- The names of the discovered objects. -/
def generatedNames (g : ObjectGraph v) : Set String := {n | ∃ i ∈ g.discovered, g.name i = n}

/-- **Renaming.** The name of a discovered object becomes the name of the same object in the other
graph; any other name stays. -/
def rename (g : ObjectGraph v) (g' : ObjectGraph w) (π : v.Index → w.Index) (n : String) : String :=
  match g.discovered.find? fun i => g.name i = n with
  | some i => g'.name (π i)
  | none => n

/-- The generated name of an object becomes the one that it has in the other graph. -/
theorem rename_name (π : v.Index → w.Index) {i : v.Index} (hi : i ∈ g.discovered) :
    g.rename g' π (g.name i) = g'.name (π i) := by
  unfold rename
  -- the first discovered object of that name is the object itself, as no two share one
  cases hfind : g.discovered.find? fun j => g.name j = g.name i with
  | none => exact absurd (decide_eq_true rfl) (List.find?_eq_none.1 hfind i hi)
  | some j =>
    have hname : g.name j = g.name i := by simpa using List.find?_some hfind
    rw [eq_of_name_eq (List.mem_of_find?_eq_some hfind) hi hname]

/-- **Generated names correspond** one to one. -/
theorem rename_bijOn (h : v.Rearranges w π) (hg : build v pointerSize = .ok g)
    (hg' : build w pointerSize = .ok g') :
    Set.BijOn (g.rename g' π) g.generatedNames g'.generatedNames := by
  refine ⟨?_, ?_, ?_⟩
  · rintro _ ⟨i, hi, rfl⟩
    rw [rename_name π hi]
    exact ⟨π i, (mem_discovered_rearranged h hg hg' i).2 hi, rfl⟩
  · -- names that become the same are names of one object in the other graph
    rintro _ ⟨i, hi, rfl⟩ _ ⟨j, hj, rfl⟩ heq
    rw [rename_name π hi, rename_name π hj] at heq
    have hi' := (mem_discovered_rearranged h hg hg' i).2 hi
    have hj' := (mem_discovered_rearranged h hg hg' j).2 hj
    rw [π.injective (eq_of_name_eq hi' hj' heq)]
  · rintro _ ⟨i', hi', rfl⟩
    obtain ⟨i, rfl⟩ := π.surjective i'
    have hi := (mem_discovered_rearranged h hg hg' i).1 hi'
    exact ⟨g.name i, ⟨i, hi, rfl⟩, rename_name π hi⟩

/-- An object that is not discovered keeps its name, and any other is renamed. -/
theorem name_rearranged (h : v.Rearranges w π) (hg : build v pointerSize = .ok g)
    (hg' : build w pointerSize = .ok g') (i : v.Index) :
    g'.name (π i) = if i ∈ g.discovered then g.rename g' π (g.name i) else g.name i := by
  split
  · next hi => exact (rename_name π hi).symm
  · next hi =>
    have hi' : π i ∉ g'.discovered := fun hmem => hi ((mem_discovered_rearranged h hg hg' i).1 hmem)
    rw [name_of_not_mem_discovered hi, name_of_not_mem_discovered hi', h.name]

/-! ### Addresses -/

/-- Each address is known in both graphs or in none, under the names of the same object. -/
theorem table_rearranged (h : v.Rearranges w π) (hg : build v pointerSize = .ok g)
    (hg' : build w pointerSize = .ok g') (hexact : g.TableExact) (hexact' : g'.TableExact)
    (address : Nat) :
    (g.table.get? address = none ∧ g'.table.get? address = none) ∨
      ∃ i, (v.object i).address = address ∧ g.table.get? address = some (g.name i) ∧
        g'.table.get? address = some (g'.name (π i)) := by
  -- tables are exact: an address is known through the one object that lies there
  have hknown : ∀ i, (v.object i).address = address → g.isNamed i = true →
      g.table.get? address = some (g.name i) ∧ g'.table.get? address = some (g'.name (π i)) := by
    intro i haddress hnamed
    refine ⟨(hexact _ _).2 ⟨i, haddress, hnamed, rfl⟩, (hexact' _ _).2 ⟨π i, ?_, ?_, rfl⟩⟩
    · rw [h.address, haddress]
    · exact (isNamed_rearranged h hg hg' i).2 hnamed
  cases hname : g.table.get? address with
  | some n =>
    obtain ⟨i, haddress, hnamed, rfl⟩ := (hexact _ _).1 hname
    exact Or.inr ⟨i, haddress, rfl, (hknown i haddress hnamed).2⟩
  | none =>
    refine Or.inl ⟨rfl, ?_⟩
    cases hname' : g'.table.get? address with
    | none => rfl
    | some n =>
      obtain ⟨i', haddress, hnamed, -⟩ := (hexact' _ _).1 hname'
      obtain ⟨i, rfl⟩ := π.surjective i'
      rw [h.address] at haddress
      -- it would be known in the first graph too
      have hsome := (hknown i haddress ((isNamed_rearranged h hg hg' i).1 hnamed)).1
      rw [hname] at hsome
      cases hsome

end ObjectGraph

namespace LazySearch

variable {v w : TestVector} {π : v.Index ≃ w.Index} {pointerSize : Nat} {r : Registry}
  {g : ObjectGraph v} {g' : ObjectGraph w}

/-- No two objects have the name of a root. -/
def UniqueRoots (v : TestVector) (roots : List Root) : Prop :=
  ∀ root ∈ roots, ∀ i j : v.Index,
    (v.object i).name = root.name → (v.object j).name = root.name → i = j

/-! ### The start -/

/-- The name of at most one object finds the same object. -/
theorem find?_rearranged (h : v.Rearranges w π) {n : String}
    (hunique : ∀ i j : v.Index, (v.object i).name = n → (v.object j).name = n → i = j) :
    w.find? n = (v.find? n).map π := by
  cases hfind : v.find? n with
  | some i =>
    have hname : (v.object i).name = n := TestVector.name_of_find? hfind
    have hsome : (w.find? n).isSome := by
      refine TestVector.find?_isSome_iff.2 ⟨w.object (π i), List.get_mem _ _, ?_⟩
      rw [h.name, hname]
    obtain ⟨j', hj'⟩ := Option.isSome_iff_exists.1 hsome
    obtain ⟨j, rfl⟩ := π.surjective j'
    have hname' : (v.object j).name = n := by
      rw [← h.name]
      exact TestVector.name_of_find? hj'
    rw [hj', hunique j i hname' hname]
    rfl
  | none =>
    cases hfind' : w.find? n with
    | none => rfl
    | some j' =>
      -- an object of that name would have been found in the other vector
      obtain ⟨j, rfl⟩ := π.surjective j'
      have hsome : (v.find? n).isSome := by
        refine TestVector.find?_isSome_iff.2 ⟨v.object j, List.get_mem _ _, ?_⟩
        rw [← h.name]
        exact TestVector.name_of_find? hfind'
      rw [hfind] at hsome
      cases hsome

theorem contains_map (π : v.Index ≃ w.Index) (seen : List v.Index) (i : v.Index) :
    (seen.map π).contains (π i) = seen.contains i := by
  rw [Bool.eq_iff_iff, List.contains_iff_mem, List.contains_iff_mem,
    List.mem_map_of_injective π.injective]

/-- The search starts with the same objects in the same order, that of the roots. -/
theorem start_rearranged (h : v.Rearranges w π) {roots : List Root} (hroots : UniqueRoots v roots)
    (seen : List v.Index) :
    start w roots (seen.map π) = (start v roots seen).map (Visit.map π) := by
  induction roots generalizing seen with
  | nil => rfl
  | cons root rest ih =>
    have hrest : UniqueRoots v rest :=
      fun root' hroot' => hroots root' (List.mem_cons_of_mem _ hroot')
    unfold start
    rw [find?_rearranged h (hroots root List.mem_cons_self)]
    cases v.find? root.name with
    | none => exact ih hrest seen
    | some i =>
      dsimp only [Option.map_some]
      rw [contains_map]
      split
      · exact ih hrest seen
      · -- the object counts as seen by the roots that follow
        rw [List.map_cons, ← ih hrest (i :: seen)]
        rfl

/-! ### The search -/

/-- A visit adds the same objects, with the same types and roots, or fails with the same error. -/
theorem follow_map (visit : Visit v) (edges : List (Edge v)) (seen : List v.Index) :
    follow r (visit.map π) (edges.map (Edge.map π)) (seen.map π) =
      (follow r visit edges seen).map (List.map (Visit.map π)) := by
  induction edges generalizing seen with
  | nil => rfl
  | cons edge rest ih =>
    have hcontains : (seen.map π).contains (edge.map π).target = seen.contains edge.target :=
      contains_map π seen edge.target
    rw [List.map_cons, follow, follow, hcontains]
    -- an object that was seen under either number is passed over
    split
    · exact ih seen
    · have hpointee : pointeeAt r (visit.map π).type (edge.map π).offset =
          pointeeAt r visit.type edge.offset := rfl
      rw [hpointee]
      cases pointeeAt r visit.type edge.offset with
      | error e => rfl
      | ok t =>
        have hrest := ih (edge.target :: seen)
        rw [List.map_cons] at hrest
        change (follow r (visit.map π) (rest.map (Edge.map π))
            (π edge.target :: seen.map π) >>= _) =
          (follow r visit rest (edge.target :: seen) >>= _).map _
        rw [hrest]
        -- the rest of the pointers fails in both searches or in neither
        cases follow r visit rest (edge.target :: seen) <;> rfl

/-- The search makes the same visits, one after another. -/
theorem explore_rearranged (h : v.Rearranges w π) (hg : ObjectGraph.build v pointerSize = .ok g)
    (hg' : ObjectGraph.build w pointerSize = .ok g') (queue : List (Visit v))
    (seen : List v.Index) :
    explore r g' (queue.map (Visit.map π)) (seen.map π) =
      ((explore r g queue seen).1.map (Visit.map π), (explore r g queue seen).2) := by
  -- a visit reads the pointers of its object only, which are the same
  have hfollow (visit : Visit v) (seen : List v.Index) :
      follow r (visit.map π) (g'.edgesFrom (visit.map π).object) (seen.map π) =
        (follow r visit (g.edgesFrom visit.object) seen).map (List.map (Visit.map π)) := by
    have hedges : g'.edgesFrom (visit.map π).object =
        (g.edgesFrom visit.object).map (Edge.map π) :=
      ObjectGraph.edgesFrom_rearranged h hg hg' visit.object
    rw [hedges, follow_map]
  induction queue, seen using explore.induct (r := r) (g := g) with
  | case1 seen => rw [List.map_nil, explore_nil, explore_nil, List.map_nil]
  | case2 seen visit rest e he =>
    have he' := hfollow visit seen
    rw [he] at he'
    rw [List.map_cons, explore_cons_of_error he', explore_cons_of_error he]
    rfl
  | case3 seen visit rest found hfound visits stop hvisits ih =>
    have hfound' := hfollow visit seen
    rw [hfound] at hfound'
    have hseen : (found.map (Visit.map π)).map (·.object) ++ seen.map π =
        (found.map (·.object) ++ seen).map π := by
      rw [List.map_append, List.map_map, List.map_map]
      rfl
    -- the visit is made in both searches, and both go on from what it found
    rw [List.map_cons, explore_cons_of_ok hfound', explore_cons_of_ok hfound, hseen,
      ← List.map_append, ih]
    rfl

/-- **The same search.** From the same roots the same objects are found in the same order, with the
same types and under the same roots, and the search ends in the same way. -/
theorem search_rearranged (h : v.Rearranges w π) (hg : ObjectGraph.build v pointerSize = .ok g)
    (hg' : ObjectGraph.build w pointerSize = .ok g') {roots : List Root}
    (hroots : UniqueRoots v roots) :
    search r g' roots =
      ((search r g roots).1.map (Visit.map π), (search r g roots).2) := by
  have hstart : start w roots [] = (start v roots []).map (Visit.map π) :=
    start_rearranged h hroots []
  have hseen : ((start v roots []).map (Visit.map π)).map (·.object) =
      ((start v roots []).map (·.object)).map π := by
    rw [List.map_map, List.map_map]
    rfl
  unfold search
  dsimp only
  rw [hstart, hseen]
  exact explore_rearranged h hg hg' _ _

/-! ### Declarations -/

/-- **Corresponding declarations.** They declare the same object under its names in the two graphs,
with the same type and root, and with the same value unless it is a function pointer. -/
structure Corresponds (r : Registry) (g : ObjectGraph v) (g' : ObjectGraph w)
    (π : v.Index → w.Index) (o o' : LazyDeclaration) : Prop where
  object : ∃ i, o.name = g.name i ∧ o'.name = g'.name (π i)
  type : o'.type = o.type
  root : o'.root = o.root
  view : r.kindOf o.type ≠ .functionPointer → o'.view = o.view

/-- Warnings do not stop a run. -/
theorem outcome_forM_warn (xs : List α) (warning : α → Warning) :
    (xs.forM fun x => Traced.warn (warning x)).outcome = .ok () := by
  induction xs with
  | nil => rfl
  | cons x rest ih =>
    rw [List.forM_eq_forM, List.forM_cons, ← List.forM_eq_forM]
    exact Traced.outcome_bind_eq_ok_iff.2 ⟨(), rfl, ih⟩

section Declare

variable {d d' : Decoder} (h : v.Rearranges w π) (halike : d.Alike d')

include h halike

/-- An object is declared in both searches or in none. -/
theorem matches_declare (visit : Visit v) :
    Traced.Matches (Corresponds d.registry g g' π) (declare d g visit)
      (declare d' g' (visit.map π)) := by
  have hbytes : (w.object (visit.map π).object).bytes = (v.object visit.object).bytes :=
    h.bytes visit.object
  unfold declare
  rw [hbytes]
  change Traced.Matches _ (if visit.type.baseIsVoid = true then _ else _)
    (if visit.type.baseIsVoid = true then _ else _)
  split
  · exact Traced.matches_of_error rfl rfl
  · refine (Decoder.matches_decode halike _ visit.type .lazy _ _).bind fun view view' hview => ?_
    exact Traced.matches_of_ok rfl rfl ⟨⟨visit.object, rfl, rfl⟩, rfl, rfl, hview⟩

/-- The declarations of the two searches correspond. -/
theorem matches_declarations (hg : ObjectGraph.build v pointerSize = .ok g)
    (hg' : ObjectGraph.build w pointerSize = .ok g') {roots : List Root}
    (hroots : UniqueRoots v roots) :
    Traced.Matches (List.Forall₂ (Corresponds d.registry g g' π)) (declarations d g roots)
      (declarations d' g' roots) := by
  have hlazy : (fun visit : Visit w => (w.object visit.object).isLazy) ∘ Visit.map π =
      fun visit : Visit v => (v.object visit.object).isLazy :=
    funext fun visit => h.isLazy visit.object
  have hwarned : Traced.Matches (fun _ _ => True)
      ((missingRoots v roots).forM fun root => Traced.warn (.missingRoot root.name))
      ((missingRoots w roots).forM fun root => Traced.warn (.missingRoot root.name)) :=
    Traced.matches_of_ok (outcome_forM_warn _ _) (outcome_forM_warn _ _) trivial
  refine hwarned.bind fun _ _ _ => ?_
  rw [halike.registry, search_rearranged h hg hg' hroots]
  dsimp only
  -- the visits to lazy objects are the same ones under new numbers
  rw [List.filter_map, hlazy, List.mapM_map]
  refine (Traced.matches_mapM fun visit _ => matches_declare h halike visit).bind ?_
  intro declared declared' hdeclared
  -- an error of the search is the same in both
  cases (search d.registry g roots).2 with
  | some e => exact Traced.matches_of_error rfl rfl
  | none => exact Traced.matches_of_ok rfl rfl hdeclared

end Declare

/-- **Order does not matter.** The objects of a consistent vector are listed in another order, and
no two of them share the name of a root. Then both graphs are built. The names of the discovered
objects correspond one to one, and other names stay. Each address is known in both graphs or in
none, under the names of the same object. The lazy objects are declared from the same roots in both
graphs or in none, and their declarations correspond in order. -/
theorem declarations_rearranged (h : v.Rearranges w π) (hv : v.Consistent pointerSize)
    {roots : List Root} (hroots : UniqueRoots v roots) (d : Decoder) :
    ∃ g g' σ, ObjectGraph.build v pointerSize = .ok g ∧ ObjectGraph.build w pointerSize = .ok g' ∧
      Set.BijOn σ g.generatedNames g'.generatedNames ∧
      (∀ i, g'.name (π i) = if i ∈ g.discovered then σ (g.name i) else g.name i) ∧
      (∀ address, (g.table.get? address = none ∧ g'.table.get? address = none) ∨
        ∃ i, (v.object i).address = address ∧ g.table.get? address = some (g.name i) ∧
          g'.table.get? address = some (g'.name (π i))) ∧
      Traced.Matches (List.Forall₂ (Corresponds d.registry g g' π))
        (declarations { d with table := g.table } g roots)
        (declarations { d with table := g'.table } g' roots) := by
  obtain ⟨g, hg, hexact⟩ := ObjectGraph.exists_build_of_consistent hv
  obtain ⟨g', hg', hexact'⟩ := ObjectGraph.exists_build_of_consistent (h.consistent hv)
  have htables := ObjectGraph.table_rearranged h hg hg' hexact hexact'
  -- the decoders differ in their tables only, and only in the names there
  have hknown : ∀ address, (g'.table.get? address).isSome = (g.table.get? address).isSome := by
    intro address
    rcases htables address with ⟨hnone, hnone'⟩ | ⟨i, -, hsome, hsome'⟩
    · rw [hnone, hnone']
    · rw [hsome, hsome']
      rfl
  have halike : Decoder.Alike { d with table := g.table } { d with table := g'.table } :=
    ⟨rfl, rfl, hknown⟩
  exact ⟨g, g', g.rename g' π, hg, hg', ObjectGraph.rename_bijOn h hg hg',
    ObjectGraph.name_rearranged h hg hg', htables, matches_declarations h halike hg hg' hroots⟩

/-- The ring with its first and its third object exchanged. -/
def exchangedRing : TestVector :=
  ObjectGraph.ringVector.permute (Equiv.swap ⟨0, by decide⟩ ⟨2, by decide⟩)

/-- The place of each object of the ring after the exchange. -/
def ringExchange : ObjectGraph.ringVector.Index ≃ exchangedRing.Index :=
  ObjectGraph.ringVector.permutation (Equiv.swap ⟨0, by decide⟩ ⟨2, by decide⟩)

/-- From the ring its two lazy objects are declared, in the order of the walk. -/
theorem outcome_declarations_ring {d : Decoder} (hd : d.registry = {}) :
    (declarations d .ring ringRoots).outcome =
      .ok [⟨"utbotInnerVar1", .simple "uint64_t", .primitive "48UL", "head"⟩,
        ⟨"utbotInnerVar2", .simple "uint64_t", .primitive "16UL", "head"⟩] := by
  obtain ⟨registry, table, method⟩ := d
  obtain rfl : registry = {} := hd
  unfold declarations
  rw [search_ring]
  rfl

/-- After the exchange the two lazy objects have each other's names. They are declared in the same
order with the same values. -/
theorem ring_declarations_rearranged :
    ObjectGraph.ringVector.Rearranges exchangedRing ringExchange ∧
      ObjectGraph.ringVector.Consistent 8 ∧ UniqueRoots ObjectGraph.ringVector ringRoots ∧
      ∃ g' σ declared, ObjectGraph.build exchangedRing 8 = .ok g' ∧
        Set.BijOn σ ObjectGraph.ring.generatedNames g'.generatedNames ∧
        σ "utbotInnerVar1" = "utbotInnerVar2" ∧ σ "utbotInnerVar2" = "utbotInnerVar1" ∧
        (declarations { table := g'.table, method := "sum" } g' ringRoots).outcome = .ok declared ∧
        declared.map (·.view) = [.primitive "48UL", .primitive "16UL"] := by
  have hrearranged : ObjectGraph.ringVector.Rearranges exchangedRing ringExchange :=
    TestVector.rearranges_permute (by decide) _
  have hconsistent : ObjectGraph.ringVector.Consistent 8 := by decide
  have hroots : UniqueRoots ObjectGraph.ringVector ringRoots := by
    unfold UniqueRoots
    decide
  obtain ⟨g, g', σ, hg, hg', hbij, hnames, -, hmatches⟩ :=
    declarations_rearranged hrearranged hconsistent hroots { method := "sum" }
  obtain rfl : ObjectGraph.ring = g := Except.ok.inj (ObjectGraph.build_ring.symm.trans hg)
  -- the names are given in the order of the scan, which meets the third object first
  have hscan : (ObjectGraph.build exchangedRing 8).map (fun g =>
      (g.name (ringExchange (1 : Fin 4)), g.name (ringExchange (2 : Fin 4)))) =
        .ok ("utbotInnerVar2", "utbotInnerVar1") := rfl
  rw [hg'] at hscan
  obtain ⟨hfirst, hsecond⟩ := Prod.ext_iff.1 (Except.ok.inj hscan)
  have hdeclared := outcome_declarations_ring
    (d := { table := ObjectGraph.ring.table, method := "sum" }) rfl
  rcases hmatches with ⟨declared, declared', h, h', hall⟩ | ⟨e, -, he, -⟩
  · obtain rfl := Except.ok.inj (hdeclared.symm.trans h)
    refine ⟨hrearranged, hconsistent, hroots, g', σ, declared', hg', hbij, ?_, ?_, h', ?_⟩
    · exact (hnames (1 : Fin 4)).symm.trans hfirst
    · exact (hnames (2 : Fin 4)).symm.trans hsecond
    · cases hall with
      | cons hone hrest =>
        cases hrest with
        | cons htwo hnil =>
          cases hnil
          rw [List.map_cons, List.map_cons, List.map_nil, hone.view (by decide),
            htwo.view (by decide)]
  · cases hdeclared.symm.trans he

end LazySearch

end SymVec

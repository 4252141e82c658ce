import SymVec.Proofs.Discovery

/-!
# First references

What the scan over the stored pointers does is told by one number for each object: the place of the
first pointer that leads to it. A lazy object is discovered there, so the discovered objects stand
in the order of these places, and only there is the pointer to it read. The scan stops at the first
pointer that leads to no object, or that is the one by which a lazy object is discovered and ends
behind the object that holds it.

All this is one invariant of the scan, `ObjectGraph.Scanned`: what has been discovered after `n`
pointers are the lazy objects whose first reference is among these.

* `TestVector.firstReference`, `TestVector.FaultAt` — places of pointers, and what is wrong there;
* `ObjectGraph.Scanned.extend`, `ObjectGraph.Scanned.extend_eq_error_iff` — one more pointer;
* `ObjectGraph.scan_induction`, `ObjectGraph.foldlM_drop_eq_error_iff` — the pointers that are left;
* `ObjectGraph.first_references_name` — when a graph is built, and its edges and names.
-/

namespace SymVec

namespace TestVector

variable (v : TestVector)

/-- Whether a stored pointer leads to the object. -/
def IsReferenced (i : v.Index) : Prop := ∃ held ∈ v.slots, held.2.index = i.val

instance (i : v.Index) : Decidable (v.IsReferenced i) :=
  inferInstanceAs (Decidable (∃ held ∈ v.slots, held.2.index = i.val))

/-- **First reference.** The place among all stored pointers of the first one that leads to the
object, or the number of pointers if none does. -/
def firstReference (i : v.Index) : Nat := v.slots.findIdx fun held => held.2.index = i.val

/-- **Faults.** What is wrong with the pointer at a place, if anything is. -/
inductive FaultAt (pointerSize : Nat) : Nat → DecodeError → Prop
  /-- It leads to no object. -/
  | missing {n : Nat} {owner : v.Index} {slot : Slot} (held : v.slots[n]? = some (owner, slot))
      (index : v.objects.length ≤ slot.index) :
      FaultAt pointerSize n
        (.malformed s!"object {(v.object owner).name} points to missing object {slot.index}")
  /-- It is the first to lead to a lazy object, and ends behind the object that holds it. -/
  | cutOff {n : Nat} {owner : v.Index} {slot : Slot} {i : v.Index}
      (held : v.slots[n]? = some (owner, slot)) (target : slot.index = i.val)
      (isLazy : (v.object i).isLazy = true) (first : v.firstReference i = n)
      (long : (v.object owner).bytes.length < slot.offset + pointerSize) :
      FaultAt pointerSize n
        (.outOfBounds slot.offset pointerSize (v.object owner).bytes.length)

variable {v} {i : v.Index} {n : Nat} {held : v.Index × Slot}

/-- The place is that of a pointer if there is one to the object. -/
theorem firstReference_lt_iff : v.firstReference i < v.slots.length ↔ v.IsReferenced i := by
  rw [firstReference, List.findIdx_lt_length]
  simp only [decide_eq_true_eq, IsReferenced]

/-- No pointer to the object comes before its first reference. -/
theorem firstReference_le (h : v.slots[n]? = some held) (htarget : held.2.index = i.val) :
    v.firstReference i ≤ n := by
  obtain ⟨hn, rfl⟩ := List.getElem?_eq_some_iff.1 h
  refine Nat.le_of_not_lt fun hlt => ?_
  -- a pointer before that place leads elsewhere
  have hother := List.not_of_lt_findIdx hlt
  simp [htarget] at hother

/-- The pointer at the place of the first reference leads to the object. -/
theorem index_of_firstReference (h : v.slots[v.firstReference i]? = some held) :
    held.2.index = i.val := by
  obtain ⟨hn, rfl⟩ := List.getElem?_eq_some_iff.1 h
  exact of_decide_eq_true (List.findIdx_getElem (w := hn))

/-- Something is wrong only with a pointer that there is. -/
theorem FaultAt.lt_length {pointerSize : Nat} {e : DecodeError} (h : v.FaultAt pointerSize n e) :
    n < v.slots.length := by
  cases h with
  | missing held => exact (List.getElem?_eq_some_iff.1 held).1
  | cutOff held => exact (List.getElem?_eq_some_iff.1 held).1

end TestVector

/-- The stored pointer for which an edge stands. -/
def Edge.held {v : TestVector} (e : Edge v) : v.Index × Slot := (e.owner, ⟨e.offset, e.target.val⟩)

namespace ObjectGraph

variable {v : TestVector} {pointerSize n : Nat} {g g' : ObjectGraph v} {held : v.Index × Slot}

/-! ### One more pointer -/

/-- **Scanned pointers.** A graph after the first `n` pointers. The edges are these pointers, and
the discovered objects are the lazy ones to which they lead, in the order of their first
references. -/
structure Scanned (g : ObjectGraph v) (n : Nat) : Prop where
  edges_eq : g.edges.map Edge.held = v.slots.take n
  mem_discovered : ∀ i, i ∈ g.discovered ↔ (v.object i).isLazy = true ∧ v.firstReference i < n
  ordered : g.discovered.Pairwise fun i j => v.firstReference i < v.firstReference j

/-- Before the first pointer nothing is discovered. -/
theorem Scanned.start (v : TestVector) :
    Scanned ({ table := declaredTable v } : ObjectGraph v) 0 where
  edges_eq := rfl
  mem_discovered i := by simp
  ordered := List.Pairwise.nil

/-- At a lazy object without a name the scan is at the first pointer to it. -/
theorem Scanned.firstReference_eq (hg : Scanned g n) (hheld : v.slots[n]? = some held)
    {i : v.Index} (htarget : held.2.index = i.val) (hnew : g.isNamed i = false) :
    v.firstReference i = n := by
  obtain ⟨hlazy, hfresh⟩ := isNamed_eq_false_iff.1 hnew
  rw [hg.mem_discovered] at hfresh
  have hlast : v.firstReference i ≤ n := TestVector.firstReference_le hheld htarget
  have hbefore : ¬v.firstReference i < n := fun hlt => hfresh ⟨hlazy, hlt⟩
  omega

/-- **One more pointer** is scanned, whether or not it discovers an object. -/
theorem Scanned.extend (hg : Scanned g n) (hheld : v.slots[n]? = some held)
    (h : ObjectGraph.extend pointerSize g held = .ok g') : Scanned g' (n + 1) := by
  obtain ⟨owner, slot⟩ := held
  obtain ⟨target, htarget, hcases⟩ := extend_cases h
  -- the edge is that of the pointer in either case
  have hedges : (g.addEdge ⟨owner, slot.offset, target⟩).edges.map Edge.held =
      v.slots.take (n + 1) := by
    rw [edges_addEdge, List.map_append, hg.edges_eq, List.take_add_one, hheld, Option.toList_some,
      List.map_cons, List.map_nil, Edge.held, htarget]
  -- an object that is first referenced here is the target
  have hhere : ∀ j, v.firstReference j = n → j = target := by
    rintro j rfl
    exact Fin.ext ((TestVector.index_of_firstReference hheld).symm.trans htarget.symm)
  rcases hcases with ⟨hnamed, rfl⟩ | ⟨hnew, stored, -, rfl⟩
  · refine ⟨hedges, fun j => ?_, hg.ordered⟩
    rw [discovered_addEdge, hg.mem_discovered]
    refine and_congr_right fun hlazy => Iff.intro (fun hlt => Nat.lt_succ_of_lt hlt) fun hlt => ?_
    refine Nat.lt_of_le_of_ne (Nat.le_of_lt_succ hlt) fun hat => ?_
    -- the target has its name from an earlier pointer
    rw [hhere j hat] at hlazy hat
    rcases isNamed_iff.1 hnamed with hdeclared | hfound
    · rw [hlazy] at hdeclared
      cases hdeclared
    · exact absurd ((hg.mem_discovered target).1 hfound).2 (by omega)
  · obtain ⟨hlazy, -⟩ := isNamed_eq_false_iff.1 hnew
    have hfirst : v.firstReference target = n := hg.firstReference_eq hheld htarget.symm hnew
    refine ⟨hedges, fun j => ?_, ?_⟩
    · rw [discovered_discover, discovered_addEdge, List.mem_append, List.mem_singleton,
        hg.mem_discovered]
      constructor
      · rintro (⟨hj, hlt⟩ | rfl)
        · exact ⟨hj, Nat.lt_succ_of_lt hlt⟩
        · exact ⟨hlazy, by omega⟩
      · rintro ⟨hj, hlt⟩
        -- an object is referenced before, or first referenced here
        rcases Nat.lt_succ_iff_lt_or_eq.1 hlt with hlt | hat
        · exact Or.inl ⟨hj, hlt⟩
        · exact Or.inr (hhere j hat)
    · rw [discovered_discover, discovered_addEdge, List.pairwise_append]
      refine ⟨hg.ordered, List.pairwise_singleton _ _, fun j hj k hk => ?_⟩
      -- the new object comes last
      rw [List.mem_singleton.1 hk, hfirst]
      exact ((hg.mem_discovered j).1 hj).2

/-- A pointer at which the scan stops leads to no object, or discovers one by bytes that its owner
does not have. -/
theorem extend_eq_error_cases {owner : v.Index} {slot : Slot} {e : DecodeError}
    (h : ObjectGraph.extend pointerSize g (owner, slot) = .error e) :
    (v.objects.length ≤ slot.index ∧
      e = .malformed s!"object {(v.object owner).name} points to missing object {slot.index}") ∨
    (∃ i : v.Index, slot.index = i.val ∧ g.isNamed i = false ∧
      (v.object owner).bytes.length < slot.offset + pointerSize ∧
      e = .outOfBounds slot.offset pointerSize (v.object owner).bytes.length) := by
  unfold ObjectGraph.extend at h
  by_cases hindex : slot.index < v.objects.length
  · simp only [hindex, dif_pos] at h
    split at h
    · cases h
    · next hnew =>
      split at h
      · cases h
      · next hcut =>
        cases h
        refine Or.inr ⟨⟨slot.index, hindex⟩, rfl, Bool.eq_false_iff.2 hnew, ?_, rfl⟩
        rw [← Option.not_isSome_iff_eq_none, Bytes.slice?_isSome_iff] at hcut
        exact Nat.lt_of_not_le hcut
  · simp only [hindex, dif_neg, not_false_eq_true] at h
    cases h
    exact Or.inl ⟨Nat.le_of_not_lt hindex, rfl⟩

/-- **The scan stops** at a pointer exactly if something is wrong with it. -/
theorem Scanned.extend_eq_error_iff (hg : Scanned g n) (hheld : v.slots[n]? = some held)
    {e : DecodeError} :
    ObjectGraph.extend pointerSize g held = .error e ↔ v.FaultAt pointerSize n e := by
  obtain ⟨owner, slot⟩ := held
  constructor
  · intro h
    obtain ⟨hindex, rfl⟩ | ⟨i, htarget, hnew, hlong, rfl⟩ := extend_eq_error_cases h
    · exact .missing hheld hindex
    · exact .cutOff hheld htarget (isNamed_eq_false_iff.1 hnew).1
        (hg.firstReference_eq hheld htarget hnew) hlong
  · intro h
    cases h with
    | missing held' hindex =>
      cases hheld.symm.trans held'
      exact dif_neg (Nat.not_lt_of_le hindex)
    | @cutOff _ _ i held' htarget hlazy hfirst hlong =>
      cases hheld.symm.trans held'
      have hindex : slot.index < v.objects.length := htarget ▸ i.isLt
      have hself : (⟨slot.index, hindex⟩ : v.Index) = i := Fin.ext htarget
      -- no pointer before this one leads to the object
      have hnew : g.isNamed i = false := by
        refine isNamed_eq_false_iff.2 ⟨hlazy, fun hfound => ?_⟩
        have hbefore := ((hg.mem_discovered i).1 hfound).2
        omega
      unfold ObjectGraph.extend
      simp only [hindex, dif_pos, hself, isNamed_addEdge, hnew, Bytes.slice?,
        if_neg (Nat.not_le_of_lt hlong), Bool.false_eq_true, if_false]

/-! ### The pointers that are left -/

/-- The first of the pointers that are left stands at that place. -/
theorem slots_of_drop {rest : List (v.Index × Slot)} (h : v.slots.drop n = held :: rest) :
    v.slots[n]? = some held ∧ v.slots.drop (n + 1) = rest := by
  constructor
  · rw [← List.head?_drop, h, List.head?_cons]
  · rw [← List.tail_drop, h, List.tail_cons]

/-- What holds before the scan, and is kept at each place, holds after it. -/
theorem scan_induction {P : ObjectGraph v → Nat → Prop} (start : P { table := declaredTable v } 0)
    (step : ∀ n held g g', v.slots[n]? = some held → P g n →
      ObjectGraph.extend pointerSize g held = .ok g' → P g' (n + 1))
    (h : build v pointerSize = .ok g) : P g v.slots.length := by
  -- by induction on the pointers that are left from place `n` on
  have run : ∀ (rest : List (v.Index × Slot)) (n : Nat) (g₀ : ObjectGraph v),
      v.slots.drop n = rest → n ≤ v.slots.length → P g₀ n →
        rest.foldlM (extend pointerSize) g₀ = .ok g → P g v.slots.length := by
    intro rest
    induction rest with
    | nil =>
      intro n g₀ hrest hn hg₀ hfold
      cases hfold
      rw [List.drop_eq_nil_iff] at hrest
      rwa [Nat.le_antisymm hn hrest] at hg₀
    | cons held rest ih =>
      intro n g₀ hrest hn hg₀ hfold
      obtain ⟨hheld, hrest⟩ := slots_of_drop hrest
      have hlt : n < v.slots.length := (List.getElem?_eq_some_iff.1 hheld).1
      rw [List.foldlM_cons] at hfold
      cases hext : ObjectGraph.extend pointerSize g₀ held with
      | error e => simp [hext, bind, Except.bind] at hfold
      | ok g₁ =>
        rw [hext] at hfold
        exact ih (n + 1) g₁ hrest hlt (step n held g₀ g₁ hheld hg₀ hext) hfold
  exact run v.slots 0 _ List.drop_zero (Nat.zero_le _) start h

/-- A graph that is built has scanned all pointers. -/
theorem scanned_build (h : build v pointerSize = .ok g) : Scanned g v.slots.length :=
  scan_induction (Scanned.start v) (fun _ _ _ _ hheld hg hstep => hg.extend hheld hstep) h

/-- **The earliest fault** among the pointers from place `n` on is the error of the scan over
them. -/
theorem foldlM_drop_eq_error_iff {e : DecodeError} (hg : Scanned g n) :
    (v.slots.drop n).foldlM (extend pointerSize) g = .error e ↔
      ∃ k, n ≤ k ∧ v.FaultAt pointerSize k e ∧
        ∀ m, n ≤ m → m < k → ∀ e', ¬v.FaultAt pointerSize m e' := by
  generalize hrest : v.slots.drop n = rest
  induction rest generalizing n g with
  | nil =>
    -- there is no pointer at which anything could be wrong
    refine iff_of_false (fun h => by cases h) ?_
    rintro ⟨k, hk, hfault, -⟩
    rw [List.drop_eq_nil_iff] at hrest
    exact absurd hfault.lt_length (Nat.not_lt_of_le (Nat.le_trans hrest hk))
  | cons held rest ih =>
    obtain ⟨hheld, hrest⟩ := slots_of_drop hrest
    have hstep : ∀ {e'}, ObjectGraph.extend pointerSize g held = .error e' ↔
        v.FaultAt pointerSize n e' := hg.extend_eq_error_iff hheld
    rw [List.foldlM_cons]
    cases hext : ObjectGraph.extend pointerSize g held with
    | error e₀ =>
      -- the fault of this pointer comes before all others
      have hhere : v.FaultAt pointerSize n e₀ := hstep.1 hext
      change Except.error e₀ = Except.error e ↔ _
      constructor
      · intro h
        cases h
        exact ⟨n, Nat.le_refl n, hhere, fun m hm hlt => absurd hlt (Nat.not_lt_of_le hm)⟩
      · rintro ⟨k, hk, hfault, hnone⟩
        obtain rfl : n = k :=
          Nat.le_antisymm hk (Nat.le_of_not_lt fun hlt => hnone n (Nat.le_refl n) hlt e₀ hhere)
        exact hext.symm.trans (hstep.2 hfault)
    | ok g₁ =>
      -- nothing is wrong with this pointer
      have hfine : ∀ e', ¬v.FaultAt pointerSize n e' := by
        intro e' hfault
        cases hext.symm.trans (hstep.2 hfault)
      refine (ih (hg.extend hheld hext) hrest).trans ?_
      constructor
      · rintro ⟨k, hk, hfault, hnone⟩
        refine ⟨k, Nat.le_of_succ_le hk, hfault, fun m hm hlt => ?_⟩
        rcases Nat.eq_or_lt_of_le hm with rfl | hm
        · exact hfine
        · exact hnone m hm hlt
      · rintro ⟨k, hk, hfault, hnone⟩
        have hne : n ≠ k := by
          rintro rfl
          exact hfine e hfault
        exact ⟨k, Nat.lt_of_le_of_ne hk hne, hfault,
          fun m hm hlt => hnone m (Nat.le_of_succ_le hm) hlt⟩

/-! ### Graphs -/

/-- **A graph fails** by the earliest fault among all pointers. -/
theorem build_eq_error_iff {e : DecodeError} :
    build v pointerSize = .error e ↔
      ∃ n, v.FaultAt pointerSize n e ∧ ∀ m < n, ∀ e', ¬v.FaultAt pointerSize m e' := by
  rw [build, ← List.drop_zero (l := v.slots), foldlM_drop_eq_error_iff (Scanned.start v)]
  simp only [Nat.zero_le, true_and, forall_const]

/-- A graph is built exactly if nothing is wrong with any pointer. -/
theorem exists_build_iff :
    (∃ g, build v pointerSize = .ok g) ↔ ∀ n e, ¬v.FaultAt pointerSize n e := by
  constructor
  · rintro ⟨g, hg⟩ n
    -- by induction on the place: an earlier fault would be the error of the scan
    induction n using Nat.strongRecOn with
    | _ n ih =>
      intro e hfault
      cases hg.symm.trans (build_eq_error_iff.2 ⟨n, hfault, ih⟩)
  · intro hfine
    cases hbuild : build v pointerSize with
    | ok g => exact ⟨g, rfl⟩
    | error e =>
      obtain ⟨n, hfault, -⟩ := build_eq_error_iff.1 hbuild
      exact absurd hfault (hfine n e)

/-- In the end the discovered objects are the lazy ones that some pointer leads to. -/
theorem Scanned.mem_discovered_iff (hg : Scanned g v.slots.length) {i : v.Index} :
    i ∈ g.discovered ↔ (v.object i).isLazy = true ∧ v.IsReferenced i := by
  rw [hg.mem_discovered, TestVector.firstReference_lt_iff]

/-- **Names follow first references.** The scan of the stored pointers fails exactly if something is
wrong with one of them, with the error of the earliest such pointer. Otherwise the edges are the
pointers in their order. A declared object and a lazy one to which no pointer leads keep their
names. The other lazy objects are numbered without gaps in the order of their first references,
whatever other pointers lead to them. -/
theorem first_references_name (v : TestVector) (pointerSize : Nat) :
    (∀ e, build v pointerSize = .error e ↔
      ∃ n, v.FaultAt pointerSize n e ∧ ∀ m < n, ∀ e', ¬v.FaultAt pointerSize m e') ∧
    ((∃ g, build v pointerSize = .ok g) ↔ ∀ n e, ¬v.FaultAt pointerSize n e) ∧
    ∀ g, build v pointerSize = .ok g →
      g.edges.map (fun e => (e.owner, ⟨e.offset, e.target.val⟩)) = v.slots ∧
      (∀ i, ((v.object i).isLazy = true → ¬v.IsReferenced i) → g.name i = (v.object i).name) ∧
      ∃ found : List v.Index,
        (∀ i, i ∈ found ↔ (v.object i).isLazy = true ∧ v.IsReferenced i) ∧
        (found.Pairwise fun i j => v.firstReference i < v.firstReference j) ∧
        ∀ (k : Nat) (hk : k < found.length), g.name found[k] = discoveredName (k + 1) := by
  refine ⟨fun e => build_eq_error_iff, exists_build_iff, fun g hg => ?_⟩
  have hscanned := scanned_build hg
  refine ⟨?_, fun i hkept => ?_, g.discovered, fun i => hscanned.mem_discovered_iff,
    hscanned.ordered, fun k hk => name_of_discovered (wellNamed_build hg).nodup hk⟩
  · have hedges := hscanned.edges_eq
    rwa [List.take_length] at hedges
  · refine name_of_not_mem_discovered fun hfound => ?_
    obtain ⟨hlazy, hreferenced⟩ := hscanned.mem_discovered_iff.1 hfound
    exact hkept hlazy hreferenced

/-- In the ring the last object, to which nothing leads, keeps its name. -/
theorem ring_first_references_name :
    build ringVector 8 = .ok ring ∧
      ring.name ⟨3, by decide⟩ = placeholderName ∧
      ∃ found : List ringVector.Index,
        (∀ i, i ∈ found ↔ (ringVector.object i).isLazy = true ∧ ringVector.IsReferenced i) ∧
        ∀ (k : Nat) (hk : k < found.length), ring.name found[k] = discoveredName (k + 1) := by
  obtain ⟨-, -, hnames⟩ := first_references_name ringVector 8
  obtain ⟨-, hkept, found, hfound, -, hnumbered⟩ := hnames ring build_ring
  exact ⟨build_ring, hkept _ (by decide), found, hfound, hnumbered⟩

end ObjectGraph

end SymVec

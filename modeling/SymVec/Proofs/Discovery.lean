import SymVec.ObjectGraph

/-!
# Discovery of lazy objects

What the scan over the stored pointers leaves behind, whatever the pointers are. A scan that
succeeds turns every pointer into one edge, and gives a name to every object that an edge leads to:
a declared object has one, and a lazy object receives one when the first pointer to it is met.

* `ObjectGraph.extend_cases` — the two things that taking in one pointer can do;
* `ObjectGraph.WellNamed` — the invariant of the scan, and `ObjectGraph.wellNamed_build`;
* `ObjectGraph.mem_edges_build` — the edges are the stored pointers;
* `ObjectGraph.name_discover` — a name once given stays;
* `ObjectGraph.eq_of_name_eq` — no two discovered objects have the same name.
-/

namespace SymVec.ObjectGraph

variable {v : TestVector} {pointerSize : Nat}

/-! ### One pointer -/

@[simp] theorem discovered_addEdge (g : ObjectGraph v) (e : Edge v) :
    (g.addEdge e).discovered = g.discovered := rfl

@[simp] theorem edges_addEdge (g : ObjectGraph v) (e : Edge v) :
    (g.addEdge e).edges = g.edges ++ [e] := rfl

@[simp] theorem isNamed_addEdge (g : ObjectGraph v) (e : Edge v) (i : v.Index) :
    (g.addEdge e).isNamed i = g.isNamed i := rfl

@[simp] theorem discovered_discover (g : ObjectGraph v) (target : v.Index) (stored : Bytes) :
    (g.discover target stored).discovered = g.discovered ++ [target] := rfl

@[simp] theorem edges_discover (g : ObjectGraph v) (target : v.Index) (stored : Bytes) :
    (g.discover target stored).edges = g.edges := rfl

/-- Declared objects have a name from the start, and lazy ones once they are discovered. -/
theorem isNamed_iff {g : ObjectGraph v} {i : v.Index} :
    g.isNamed i = true ↔ (v.object i).isLazy = false ∨ i ∈ g.discovered := by
  simp [isNamed]

/-- Without a name are the lazy objects that no pointer was met to. -/
theorem isNamed_eq_false_iff {g : ObjectGraph v} {i : v.Index} :
    g.isNamed i = false ↔ (v.object i).isLazy = true ∧ i ∉ g.discovered := by
  simp [isNamed]

/-- **One pointer.** Its edge is added at the end. The object it leads to has a name, or it is lazy
and discovered by the bytes of the pointer. -/
theorem extend_cases {g g' : ObjectGraph v} {owner : v.Index} {slot : Slot}
    (h : extend pointerSize g (owner, slot) = .ok g') :
    ∃ target : v.Index, target.val = slot.index ∧
      ((g.isNamed target = true ∧ g' = g.addEdge ⟨owner, slot.offset, target⟩) ∨
        (g.isNamed target = false ∧ ∃ stored,
          (v.object owner).bytes.slice? slot.offset pointerSize = some stored ∧
            g' = (g.addEdge ⟨owner, slot.offset, target⟩).discover target stored)) := by
  unfold extend at h
  by_cases hindex : slot.index < v.objects.length
  · refine ⟨⟨slot.index, hindex⟩, rfl, ?_⟩
    simp only [hindex, dif_pos] at h
    split at h
    · next hnamed =>
      cases h
      exact Or.inl ⟨hnamed, rfl⟩
    · next hnamed =>
      -- the bytes of the pointer are read for its address
      split at h
      · next stored hstored =>
        cases h
        exact Or.inr ⟨Bool.eq_false_iff.2 hnamed, stored, hstored, rfl⟩
      · cases h
  · -- a pointer to no object stops the scan
    simp [hindex] at h

/-- **Names are kept.** The discovery of an object without a name gives it the next one, and changes
no other name. -/
theorem name_discover {g : ObjectGraph v} {target : v.Index} {stored : Bytes}
    (h : target ∉ g.discovered) (i : v.Index) :
    (g.discover target stored).name i =
      if i = target then discoveredName (g.discovered.length + 1) else g.name i := by
  unfold name
  rw [discovered_discover]
  by_cases htarget : i = target
  · -- the new object stands behind all that were discovered
    subst htarget
    have hplace : (g.discovered ++ [i]).idxOf i = g.discovered.length := by
      rw [List.idxOf_append, if_neg h, List.idxOf_cons_self, Nat.zero_add]
    rw [if_pos (by simp), if_pos rfl, hplace]
  · -- the places of the others stay the same
    rw [if_neg htarget]
    by_cases hfound : i ∈ g.discovered
    · rw [if_pos (by simp [hfound]), if_pos hfound, List.idxOf_append, if_pos hfound]
    · rw [if_neg (by simp [hfound, htarget]), if_neg hfound]

/-- Generated names are told apart by their numbers. -/
theorem discoveredName_injective {m n : Nat} (h : discoveredName m = discoveredName n) :
    m = n := by
  have htext : Nat.repr m = Nat.repr n := (String.append_right_inj _).1 h
  have hdigits : Nat.toDigits 10 m = Nat.toDigits 10 n := by
    rw [Nat.repr_eq_ofList_toDigits, Nat.repr_eq_ofList_toDigits] at htext
    simpa using congrArg String.toList htext
  -- the digits are read back as the number that they write
  calc m = Nat.ofDigitChars 10 (Nat.toDigits 10 m) 0 := Nat.ofDigitChars_ten_toDigits.symm
    _ = Nat.ofDigitChars 10 (Nat.toDigits 10 n) 0 := by rw [hdigits]
    _ = n := Nat.ofDigitChars_ten_toDigits

/-- No two discovered objects have the same name. -/
theorem eq_of_name_eq {g : ObjectGraph v} {i j : v.Index} (hi : i ∈ g.discovered)
    (hj : j ∈ g.discovered) (h : g.name i = g.name j) : i = j := by
  rw [name, if_pos hi, name, if_pos hj] at h
  have hplace : g.discovered.idxOf i = g.discovered.idxOf j :=
    Nat.succ.inj (discoveredName_injective h)
  -- both stand at that place
  have hstands : ∀ k ∈ g.discovered, g.discovered[g.discovered.idxOf k]? = some k := fun k hk =>
    List.getElem?_eq_some_iff.2
      ⟨List.idxOf_lt_length_iff.2 hk, List.getElem_idxOf (List.idxOf_lt_length_iff.2 hk)⟩
  have hsame := hstands i hi
  rw [hplace, hstands j hj] at hsame
  exact (Option.some.inj hsame).symm

/-! ### The invariant of the scan -/

/-- **Well-named graph.** The discovered objects are distinct lazy objects that edges lead to, and
each edge leads to an object that has a name. -/
structure WellNamed (g : ObjectGraph v) : Prop where
  nodup : g.discovered.Nodup
  isLazy_of_mem : ∀ i ∈ g.discovered, (v.object i).isLazy = true
  entered : ∀ i ∈ g.discovered, ∃ e ∈ g.edges, e.target = i
  named : ∀ e ∈ g.edges, g.isNamed e.target = true

/-- The scan starts with no edges and no discovered objects. -/
theorem WellNamed.start (v : TestVector) :
    WellNamed { table := declaredTable v : ObjectGraph v } where
  nodup := List.nodup_nil
  isLazy_of_mem _ h := absurd h List.not_mem_nil
  entered _ h := absurd h List.not_mem_nil
  named _ h := absurd h List.not_mem_nil

/-- An edge to an object that has a name keeps the graph well named. -/
theorem WellNamed.addEdge {g : ObjectGraph v} (hg : WellNamed g) {e : Edge v}
    (h : g.isNamed e.target = true) : WellNamed (g.addEdge e) where
  nodup := hg.nodup
  isLazy_of_mem := hg.isLazy_of_mem
  entered i hi := by
    obtain ⟨e', he', htarget⟩ := hg.entered i hi
    exact ⟨e', List.mem_append_left _ he', htarget⟩
  named e' he' := by
    rw [edges_addEdge, List.mem_append, List.mem_singleton] at he'
    rcases he' with he' | rfl
    · exact hg.named e' he'
    · exact h

/-- A pointer to a lazy object without a name keeps the graph well named, as it names the object. -/
theorem WellNamed.discover {g : ObjectGraph v} (hg : WellNamed g) {e : Edge v}
    (h : g.isNamed e.target = false) (stored : Bytes) :
    WellNamed ((g.addEdge e).discover e.target stored) := by
  obtain ⟨hlazy, hnew⟩ := isNamed_eq_false_iff.1 h
  refine ⟨?_, ?_, ?_, ?_⟩
  -- the object is not among those discovered before
  · rw [discovered_discover, discovered_addEdge, List.nodup_append]
    refine ⟨hg.nodup, by simp, ?_⟩
    intro i hi j hj heq
    rw [List.mem_singleton] at hj
    subst heq hj
    exact hnew hi
  · intro i hi
    rw [discovered_discover, discovered_addEdge, List.mem_append, List.mem_singleton] at hi
    rcases hi with hi | rfl
    · exact hg.isLazy_of_mem i hi
    · exact hlazy
  · intro i hi
    rw [discovered_discover, discovered_addEdge, List.mem_append, List.mem_singleton] at hi
    rcases hi with hi | rfl
    · obtain ⟨e', he', htarget⟩ := hg.entered i hi
      exact ⟨e', List.mem_append_left _ he', htarget⟩
    · exact ⟨e, List.mem_append_right _ (List.mem_singleton.2 rfl), rfl⟩
  · intro e' he'
    rw [edges_discover, edges_addEdge, List.mem_append, List.mem_singleton] at he'
    rw [isNamed_iff, discovered_discover, discovered_addEdge, List.mem_append,
      List.mem_singleton]
    rcases he' with he' | rfl
    · -- what had a name has it still
      rcases isNamed_iff.1 (hg.named e' he') with hdeclared | hfound
      · exact Or.inl hdeclared
      · exact Or.inr (Or.inl hfound)
    · exact Or.inr (Or.inr rfl)

/-- **One pointer** keeps the graph well named, -/
theorem WellNamed.extend {g g' : ObjectGraph v} {held : v.Index × Slot} (hg : WellNamed g)
    (h : extend pointerSize g held = .ok g') : WellNamed g' := by
  obtain ⟨owner, slot⟩ := held
  obtain ⟨target, -, ⟨hnamed, rfl⟩ | ⟨hnamed, stored, -, rfl⟩⟩ := extend_cases h
  · exact hg.addEdge hnamed
  · exact hg.discover hnamed stored

/-! ### The whole scan -/

/-- A property that each pointer keeps is kept by the scan over several pointers. -/
theorem invariant_of_foldlM {P : ObjectGraph v → Prop} {held : List (v.Index × Slot)}
    {g g' : ObjectGraph v} (h : held.foldlM (ObjectGraph.extend pointerSize) g = .ok g') (hg : P g)
    (step : ∀ s ∈ held, ∀ g g', P g → ObjectGraph.extend pointerSize g s = .ok g' → P g') :
    P g' := by
  induction held generalizing g with
  | nil =>
    cases h
    exact hg
  | cons s rest ih =>
    rw [List.foldlM_cons] at h
    cases hs : ObjectGraph.extend pointerSize g s with
    | error e => simp [hs, bind, Except.bind] at h
    | ok g₁ =>
      rw [hs] at h
      -- the first pointer keeps the property, and so do the others
      have hg₁ : P g₁ := step s List.mem_cons_self g g₁ hg hs
      exact ih h hg₁ fun s' hs' => step s' (List.mem_cons_of_mem _ hs')

/-- and so does the scan over all of them. -/
theorem wellNamed_build {g : ObjectGraph v} (h : build v pointerSize = .ok g) : WellNamed g :=
  invariant_of_foldlM h (WellNamed.start v) fun _ _ _ _ hg hs => hg.extend hs

/-- The edge that a stored pointer becomes. -/
def IsEdgeOf (e : Edge v) (held : v.Index × Slot) : Prop :=
  e.owner = held.1 ∧ e.offset = held.2.offset ∧ e.target.val = held.2.index

/-- Each pointer of a scan becomes an edge, and there are no others. -/
theorem mem_edges_foldlM {held : List (v.Index × Slot)} {g g' : ObjectGraph v}
    (h : held.foldlM (extend pointerSize) g = .ok g') (e : Edge v) :
    e ∈ g'.edges ↔ e ∈ g.edges ∨ ∃ s ∈ held, IsEdgeOf e s := by
  induction held generalizing g with
  | nil =>
    cases h
    simp
  | cons s rest ih =>
    rw [List.foldlM_cons] at h
    cases hs : extend pointerSize g s with
    | error e => simp [hs, bind, Except.bind] at h
    | ok g₁ =>
      rw [hs] at h
      obtain ⟨hindex, hedges⟩ := edges_extend hs
      -- the edge that was added is that of the first pointer
      have hlast : e = ⟨s.1, s.2.offset, ⟨s.2.index, hindex⟩⟩ ↔ IsEdgeOf e s := by
        unfold IsEdgeOf
        cases e
        simp [Fin.ext_iff]
      rw [ih h, hedges, List.mem_append, List.mem_singleton, hlast, or_assoc]
      simp only [List.mem_cons, exists_eq_or_imp]

theorem mem_slots {held : v.Index × Slot} : held ∈ v.slots ↔ held.2 ∈ (v.object held.1).slots := by
  obtain ⟨owner, slot⟩ := held
  simp [TestVector.slots, v.mem_indices]

/-- **Edges are the stored pointers.** -/
theorem mem_edges_build {g : ObjectGraph v} (h : build v pointerSize = .ok g) (e : Edge v) :
    e ∈ g.edges ↔
      ∃ slot ∈ (v.object e.owner).slots, slot.offset = e.offset ∧ slot.index = e.target.val := by
  have hstart : e ∉ ({ table := declaredTable v } : ObjectGraph v).edges := List.not_mem_nil
  rw [mem_edges_foldlM h, or_iff_right hstart]
  constructor
  · rintro ⟨⟨owner, slot⟩, hslot, rfl, hoffset, hindex⟩
    exact ⟨slot, mem_slots.1 hslot, hoffset.symm, hindex.symm⟩
  · rintro ⟨slot, hslot, hoffset, hindex⟩
    exact ⟨(e.owner, slot), mem_slots.2 hslot, rfl, hoffset.symm, hindex.symm⟩

/-! ### A ring of objects -/

/-- Three objects in a ring, of which the first is declared, and one more that leads into it. -/
def ringVector : TestVector where
  objects :=
    [⟨"head", [0x20, 0, 0, 0, 0, 0, 0, 0], [⟨0, 1⟩], 0x10, false⟩,
      ⟨placeholderName, [0x30, 0, 0, 0, 0, 0, 0, 0], [⟨0, 2⟩], 0x20, true⟩,
      ⟨placeholderName, [0x10, 0, 0, 0, 0, 0, 0, 0], [⟨0, 0⟩], 0x30, true⟩,
      ⟨placeholderName, [0x20, 0, 0, 0, 0, 0, 0, 0], [⟨0, 1⟩], 0x40, true⟩]

/-- The graph of the ring. No pointer leads to the last object, which stays without a name. -/
def ring : ObjectGraph ringVector where
  edges :=
    [⟨(0 : Fin 4), 0, (1 : Fin 4)⟩, ⟨(1 : Fin 4), 0, (2 : Fin 4)⟩,
      ⟨(2 : Fin 4), 0, (0 : Fin 4)⟩, ⟨(3 : Fin 4), 0, (1 : Fin 4)⟩]
  discovered := [(1 : Fin 4), (2 : Fin 4)]
  table := ⟨[(0x10, "head"), (0x20, "utbotInnerVar1"), (0x30, "utbotInnerVar2")]⟩

/-- It is the graph that is built. -/
theorem build_ring : build ringVector 8 = .ok ring := rfl

end SymVec.ObjectGraph

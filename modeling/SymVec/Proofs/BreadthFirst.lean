import SymVec.LazySearch
import SymVec.Proofs.Discovery
import SymVec.Proofs.Tracing

/-!
# Breadth-first search

The search for lazy objects visits each object that a pointer leads to from a root, and no other,
and it visits nearer objects first. Whether pointers run in a circle, lead back to their owner or to
a declared variable makes no difference.

The search is described by a `Frontier`: the visits that are made, those that wait, and for each
object found the number of pointers that led to it. The numbers never fall along the two lists, and
among the waiting visits they differ by at most one. When nothing waits, what was found is closed
under pointers, and the numbers are distances.

* `LazySearch.Frontier.step` — one visit keeps the invariant;
* `LazySearch.frontier_search` — so does the whole search;
* `LazySearch.Frontier.covers` — a search that ends has found what can be reached;
* `LazySearch.declarations_exact` — the declarations that come of it.
-/

namespace SymVec

variable {v : TestVector}

/-! ### Walks -/

namespace ObjectGraph

/-- One object holds a pointer to another. -/
def Adjacent (g : ObjectGraph v) (i j : v.Index) : Prop :=
  ∃ e ∈ g.edges, e.owner = i ∧ e.target = j

/-- **Walk** along a number of pointers. -/
inductive Walk (g : ObjectGraph v) (i : v.Index) : Nat → v.Index → Prop
  | refl : Walk g i 0 i
  | step {n : Nat} {j k : v.Index} : Walk g i n j → g.Adjacent j k → Walk g i (n + 1) k

/-- The pointers of an object are the edges that it owns. -/
theorem mem_edgesFrom {g : ObjectGraph v} {i : v.Index} {e : Edge v} :
    e ∈ g.edgesFrom i ↔ e ∈ g.edges ∧ e.owner = i := by
  simp [edgesFrom]

/-- A walk of that many pointers leads to the object from one that a root names. -/
def ReachedFrom (g : ObjectGraph v) (roots : List Root) (n : Nat) (i : v.Index) : Prop :=
  ∃ root ∈ roots, ∃ j, v.find? root.name = some j ∧ g.Walk j n i

/-- The least number of pointers by which the object is reached from the roots. -/
def IsDistance (g : ObjectGraph v) (roots : List Root) (i : v.Index) (n : Nat) : Prop :=
  g.ReachedFrom roots n i ∧ ∀ m, g.ReachedFrom roots m i → n ≤ m

end ObjectGraph

namespace LazySearch

variable {r : Registry} {g : ObjectGraph v}

/-! ### The start -/

/-- What stands at the start was not seen before, and stands there for a root that names it. -/
theorem start_subset {roots : List Root} {seen : List v.Index} {s : Visit v}
    (h : s ∈ start v roots seen) :
    s.object ∉ seen ∧ ∃ root ∈ roots, s.root = root.name ∧ s.type = rootType root.type ∧
      v.find? root.name = some s.object := by
  induction roots generalizing seen with
  | nil => cases h
  | cons root rest ih =>
    -- what later roots add was not seen before them either
    have skip : ∀ {seen' : List v.Index}, seen ⊆ seen' → s ∈ start v rest seen' →
        s.object ∉ seen ∧ ∃ root' ∈ root :: rest, s.root = root'.name ∧
          s.type = rootType root'.type ∧ v.find? root'.name = some s.object := by
      intro seen' hseen hs
      obtain ⟨hnew, root', hroot', hfacts⟩ := ih hs
      exact ⟨fun hmem => hnew (hseen hmem), root', List.mem_cons_of_mem _ hroot', hfacts⟩
    unfold start at h
    split at h
    · exact skip (List.Subset.refl _) h
    · next i hi =>
      split at h
      · exact skip (List.Subset.refl _) h
      · next hnew =>
        rcases List.mem_cons.1 h with rfl | h
        · exact ⟨by simpa using hnew, root, List.mem_cons_self, rfl, rfl, hi⟩
        · exact skip (List.subset_cons_self _ _) h

/-- No object is twice at the start, even if two roots name it. -/
theorem start_nodup (roots : List Root) (seen : List v.Index) :
    ((start v roots seen).map (·.object)).Nodup := by
  induction roots generalizing seen with
  | nil => exact List.nodup_nil
  | cons root rest ih =>
    unfold start
    split
    · exact ih seen
    · next i hi =>
      split
      · exact ih seen
      · -- the object counts as seen by the roots that follow
        refine List.nodup_cons.2 ⟨?_, ih _⟩
        intro hmem
        obtain ⟨s, hs, hobject⟩ := List.mem_map.1 hmem
        exact (start_subset hs).1 (hobject ▸ List.mem_cons_self)

/-- The object of every root that has one is at the start. -/
theorem start_covers {roots : List Root} (seen : List v.Index) {root : Root} {i : v.Index}
    (hroot : root ∈ roots) (hi : v.find? root.name = some i) :
    i ∈ seen ∨ ∃ s ∈ start v roots seen, s.object = i := by
  induction roots generalizing seen with
  | nil => cases hroot
  | cons root' rest ih =>
    unfold start
    rcases List.mem_cons.1 hroot with rfl | hroot
    · simp only [hi]
      split
      · next hseen => exact Or.inl (by simpa using hseen)
      · exact Or.inr ⟨_, List.mem_cons_self, rfl⟩
    · split
      · exact ih seen hroot
      · next j _ =>
        split
        · exact ih seen hroot
        · rcases ih (j :: seen) hroot with hseen | ⟨s, hs, rfl⟩
          · rcases List.mem_cons.1 hseen with rfl | hseen
            · exact Or.inr ⟨_, List.mem_cons_self, rfl⟩
            · exact Or.inl hseen
          · exact Or.inr ⟨s, List.mem_cons_of_mem _ hs, rfl⟩

/-! ### One visit -/

/-- What the pointers of a visited object add to the search: distinct objects not seen before, of
the types behind the pointers and under the root of the visit. No pointer is left out. -/
structure Followed (r : Registry) (visit : Visit v) (edges : List (Edge v)) (seen : List v.Index)
    (found : List (Visit v)) : Prop where
  nodup : (found.map (·.object)).Nodup
  fresh : ∀ w ∈ found, w.object ∉ seen
  root : ∀ w ∈ found, w.root = visit.root
  pointee : ∀ w ∈ found, ∃ e ∈ edges, e.target = w.object ∧
    pointeeAt r visit.type e.offset = .ok w.type
  covered : ∀ e ∈ edges, e.target ∈ seen ∨ ∃ w ∈ found, w.object = e.target

section Followed

variable {visit : Visit v} {edge : Edge v} {rest : List (Edge v)} {seen : List v.Index}
  {found : List (Visit v)}

/-- A pointer to an object that was seen adds nothing. -/
theorem Followed.skip (h : Followed r visit rest seen found) (hseen : edge.target ∈ seen) :
    Followed r visit (edge :: rest) seen found where
  nodup := h.nodup
  fresh := h.fresh
  root := h.root
  pointee w hw := by
    obtain ⟨e, he, hfacts⟩ := h.pointee w hw
    exact ⟨e, List.mem_cons_of_mem _ he, hfacts⟩
  covered e he := by
    rcases List.mem_cons.1 he with rfl | he
    · exact Or.inl hseen
    · exact h.covered e he

/-- A pointer to another object adds it, and counts it as seen by the pointers that follow. -/
theorem Followed.add {t : CType} (h : Followed r visit rest (edge.target :: seen) found)
    (hnew : edge.target ∉ seen) (ht : pointeeAt r visit.type edge.offset = .ok t) :
    Followed r visit (edge :: rest) seen (⟨edge.target, t, visit.root⟩ :: found) where
  nodup := by
    refine List.nodup_cons.2 ⟨?_, h.nodup⟩
    intro hmem
    obtain ⟨w, hw, hobject⟩ := List.mem_map.1 hmem
    exact h.fresh w hw (hobject ▸ List.mem_cons_self)
  fresh w hw := by
    rcases List.mem_cons.1 hw with rfl | hw
    · exact hnew
    · exact fun hmem => h.fresh w hw (List.mem_cons_of_mem _ hmem)
  root w hw := by
    rcases List.mem_cons.1 hw with rfl | hw
    · rfl
    · exact h.root w hw
  pointee w hw := by
    rcases List.mem_cons.1 hw with rfl | hw
    · exact ⟨edge, List.mem_cons_self, rfl, ht⟩
    · obtain ⟨e, he, hfacts⟩ := h.pointee w hw
      exact ⟨e, List.mem_cons_of_mem _ he, hfacts⟩
  covered e he := by
    rcases List.mem_cons.1 he with rfl | he
    · exact Or.inr ⟨_, List.mem_cons_self, rfl⟩
    · rcases h.covered e he with hmem | ⟨w, hw, hobject⟩
      · -- a second pointer to the object that was just added
        rcases List.mem_cons.1 hmem with htarget | hmem
        · exact Or.inr ⟨_, List.mem_cons_self, htarget.symm⟩
        · exact Or.inl hmem
      · exact Or.inr ⟨w, List.mem_cons_of_mem _ hw, hobject⟩

end Followed

/-- Following the pointers of a visit, if all of them can be attributed, adds exactly that. -/
theorem followed {visit : Visit v} {edges : List (Edge v)} {seen : List v.Index}
    {found : List (Visit v)} (h : follow r visit edges seen = .ok found) :
    Followed r visit edges seen found := by
  induction edges generalizing seen found with
  | nil =>
    cases h
    exact ⟨List.nodup_nil, by simp, by simp, by simp, by simp⟩
  | cons edge rest ih =>
    unfold follow at h
    split at h
    · next hseen => exact (ih h).skip (by simpa using hseen)
    · next hnew =>
      -- a search that goes on has attributed this pointer, and all the pointers behind it
      cases ht : pointeeAt r visit.type edge.offset with
      | error e => simp [ht, bind, Except.bind] at h
      | ok t =>
        cases hf : follow r visit rest (edge.target :: seen) with
        | error e => simp [ht, hf, bind, Except.bind] at h
        | ok more =>
          simp only [ht, hf, bind, Except.bind, Except.ok.injEq] at h
          subst h
          exact (ih hf).add (by simpa using hnew) ht

/-! ### The invariant -/

/-- **Frontier** of a search from the visits `first`. The visits in `done` are made, those in
`queue` wait, and `depth` counts the pointers by which an object was found. -/
structure Frontier (g : ObjectGraph v) (first done queue : List (Visit v)) (seen : List v.Index)
    (depth : v.Index → Nat) : Prop where
  mem_seen : ∀ i, i ∈ seen ↔ ∃ w ∈ done ++ queue, w.object = i
  nodup : ((done ++ queue).map (·.object)).Nodup
  ordered : (done ++ queue).Pairwise fun w w' => depth w.object ≤ depth w'.object
  near : ∀ w ∈ queue, ∀ w' ∈ queue, depth w'.object ≤ depth w.object + 1
  traced : ∀ w ∈ done ++ queue, ∃ s ∈ first, s.root = w.root ∧
    g.Walk s.object (depth w.object) w.object
  sources : ∀ s ∈ first, s.object ∈ seen ∧ depth s.object = 0
  closed : ∀ w ∈ done, ∀ j, g.Adjacent w.object j → j ∈ seen ∧ depth j ≤ depth w.object + 1

/-- At the start nothing is visited, and what waits is no pointer away from a root. -/
theorem Frontier.start (g : ObjectGraph v) (roots : List Root) :
    Frontier g (start v roots []) [] (LazySearch.start v roots [])
      ((LazySearch.start v roots []).map (·.object)) fun _ => 0 where
  mem_seen i := by simp
  nodup := start_nodup roots []
  ordered := List.pairwise_of_forall fun _ _ => Nat.le_refl 0
  near _ _ _ _ := Nat.zero_le 1
  traced w hw := ⟨w, hw, rfl, .refl⟩
  sources s hs := ⟨List.mem_map_of_mem hs, rfl⟩
  closed _ h := absurd h List.not_mem_nil

/-- The count of pointers after a visit, whose finds are one pointer further away. -/
def deepen (depth : v.Index → Nat) (visit : Visit v) (found : List (Visit v)) (i : v.Index) : Nat :=
  if (found.map (·.object)).contains i then depth visit.object + 1 else depth i

/-- A find of the visit is one pointer further away than the visit. -/
theorem deepen_of_mem {depth : v.Index → Nat} {visit w : Visit v} {found : List (Visit v)}
    (h : w ∈ found) : deepen depth visit found w.object = depth visit.object + 1 :=
  if_pos (List.contains_iff_mem.2 (List.mem_map_of_mem h))

/-- What was seen before the visit keeps its count. -/
theorem deepen_of_mem_seen {depth : v.Index → Nat} {visit : Visit v} {edges : List (Edge v)}
    {seen : List v.Index} {found : List (Visit v)} (hf : Followed r visit edges seen found)
    {i : v.Index} (h : i ∈ seen) : deepen depth visit found i = depth i := by
  refine if_neg fun hmem => ?_
  obtain ⟨w, hw, rfl⟩ := List.mem_map.1 (List.contains_iff_mem.1 hmem)
  exact hf.fresh w hw h

section Visit

variable {first done rest found : List (Visit v)} {visit : Visit v} {seen : List v.Index}
  {depth : v.Index → Nat}

/-- What waits behind the next visit was found by at least as many pointers. -/
theorem Frontier.le_of_mem_rest (h : Frontier g first done (visit :: rest) seen depth)
    {w : Visit v} (hw : w ∈ rest) : depth visit.object ≤ depth w.object :=
  (List.pairwise_cons.1 (List.pairwise_append.1 h.ordered).2.1).1 w hw

/-- Nothing was found by more pointers than one behind the next visit. -/
theorem Frontier.le_succ (h : Frontier g first done (visit :: rest) seen depth) {w : Visit v}
    (hw : w ∈ done ++ visit :: rest) : depth w.object ≤ depth visit.object + 1 := by
  rcases List.mem_append.1 hw with hdone | hqueue
  · have hle := (List.pairwise_append.1 h.ordered).2.2 w hdone visit List.mem_cons_self
    exact Nat.le_succ_of_le hle
  · exact h.near visit List.mem_cons_self w hqueue

/-- The finds of a visit, put behind all that waits, keep the order. -/
theorem Frontier.ordered_deepen (h : Frontier g first done (visit :: rest) seen depth)
    (hold : ∀ w ∈ done ++ visit :: rest, deepen depth visit found w.object = depth w.object) :
    ((done ++ visit :: rest) ++ found).Pairwise fun w w' =>
      deepen depth visit found w.object ≤ deepen depth visit found w'.object := by
  rw [List.pairwise_append]
  refine ⟨?_, ?_, ?_⟩
  · refine h.ordered.imp_of_mem fun hw hw' hle => ?_
    rw [hold _ hw, hold _ hw']
    exact hle
  · refine List.pairwise_of_forall_mem_list fun w hw w' hw' => ?_
    have hlevel : deepen depth visit found w.object = deepen depth visit found w'.object := by
      rw [deepen_of_mem hw, deepen_of_mem hw']
    exact Nat.le_of_eq hlevel
  · intro w hw w' hw'
    rw [hold w hw, deepen_of_mem hw']
    exact h.le_succ hw

/-- The finds of a visit are not far from what waits. -/
theorem Frontier.near_deepen (h : Frontier g first done (visit :: rest) seen depth)
    (hold : ∀ w ∈ rest, deepen depth visit found w.object = depth w.object) :
    ∀ w ∈ rest ++ found, ∀ w' ∈ rest ++ found,
      deepen depth visit found w'.object ≤ deepen depth visit found w.object + 1 := by
  intro w hw w' hw'
  -- both counts lie between that of the visit and one more
  have hupper : deepen depth visit found w'.object ≤ depth visit.object + 1 := by
    rcases List.mem_append.1 hw' with hw' | hw'
    · rw [hold w' hw']
      exact h.le_succ (List.mem_append_right _ (List.mem_cons_of_mem _ hw'))
    · exact Nat.le_of_eq (deepen_of_mem hw')
  have hlower : depth visit.object ≤ deepen depth visit found w.object := by
    rcases List.mem_append.1 hw with hw | hw
    · rw [hold w hw]
      exact h.le_of_mem_rest hw
    · rw [deepen_of_mem hw]
      exact Nat.le_succ _
  exact Nat.le_trans hupper (Nat.succ_le_succ hlower)

/-- **One visit** keeps the frontier. -/
theorem Frontier.step (h : Frontier g first done (visit :: rest) seen depth)
    (hf : Followed r visit (g.edgesFrom visit.object) seen found) :
    Frontier g first (done ++ [visit]) (rest ++ found) (found.map (·.object) ++ seen)
      (deepen depth visit found) := by
  have happend : done ++ [visit] ++ (rest ++ found) = (done ++ visit :: rest) ++ found := by simp
  have hvisit : visit ∈ done ++ visit :: rest := by simp
  have hseen : ∀ w ∈ done ++ visit :: rest, w.object ∈ seen := fun w hw =>
    (h.mem_seen _).2 ⟨w, hw, rfl⟩
  -- what was found before keeps its count
  have hold : ∀ w ∈ done ++ visit :: rest, deepen depth visit found w.object = depth w.object :=
    fun w hw => deepen_of_mem_seen hf (hseen w hw)
  refine ⟨?_, ?_, ?_, ?_, ?_, ?_, ?_⟩
  · -- the objects seen are those visited and those that wait
    intro i
    rw [happend, List.mem_append, h.mem_seen i, List.mem_map, or_comm]
    simp only [List.mem_append (s := done ++ visit :: rest), or_and_right, exists_or]
  · -- the finds are distinct, and none of them was seen before
    rw [happend, List.map_append, List.nodup_append]
    refine ⟨h.nodup, hf.nodup, ?_⟩
    intro i hi j hj heq
    obtain ⟨w, hw, rfl⟩ := List.mem_map.1 hi
    obtain ⟨w', hw', rfl⟩ := List.mem_map.1 hj
    exact hf.fresh w' hw' (heq ▸ hseen w hw)
  · rw [happend]
    exact h.ordered_deepen hold
  · exact h.near_deepen fun w hw =>
      hold w (List.mem_append_right _ (List.mem_cons_of_mem _ hw))
  · intro w hw
    rw [happend, List.mem_append] at hw
    rcases hw with hw | hw
    · rw [hold w hw]
      exact h.traced w hw
    · -- a find lies one pointer behind the visit
      obtain ⟨s, hs, hroot, hwalk⟩ := h.traced visit hvisit
      obtain ⟨e, he, htarget, -⟩ := hf.pointee w hw
      obtain ⟨he, howner⟩ := ObjectGraph.mem_edgesFrom.1 he
      rw [deepen_of_mem hw]
      exact ⟨s, hs, hroot.trans (hf.root w hw).symm, hwalk.step ⟨e, he, howner, htarget⟩⟩
  · -- the sources were seen at the start and keep their count
    intro s hs
    obtain ⟨hmem, hzero⟩ := h.sources s hs
    refine ⟨List.mem_append_right _ hmem, ?_⟩
    rw [deepen_of_mem_seen hf hmem, hzero]
  · intro w hw j hj
    rcases List.mem_append.1 hw with hw | hw
    · obtain ⟨hmem, hle⟩ := h.closed w hw j hj
      refine ⟨List.mem_append_right _ hmem, ?_⟩
      rw [deepen_of_mem_seen hf hmem, hold w (List.mem_append_left _ hw)]
      exact hle
    · -- the pointers of the visit have just been followed
      obtain rfl := List.mem_singleton.1 hw
      obtain ⟨e, he, howner, rfl⟩ := hj
      rw [hold w hvisit]
      -- a target seen before is at most one pointer behind the visit, a new one exactly one
      rcases hf.covered e (ObjectGraph.mem_edgesFrom.2 ⟨he, howner⟩) with hmem | ⟨w', hw', hobject⟩
      · refine ⟨List.mem_append_right _ hmem, ?_⟩
        rw [deepen_of_mem_seen hf hmem]
        obtain ⟨w', hw', hobject⟩ := (h.mem_seen _).1 hmem
        rw [← hobject]
        exact h.le_succ hw'
      · rw [← hobject, deepen_of_mem hw']
        exact ⟨List.mem_append_left _ (List.mem_map_of_mem hw'), Nat.le_refl _⟩

end Visit

/-! ### The whole search -/

theorem explore_nil (seen : List v.Index) : explore r g [] seen = ([], none) := by
  rw [explore]

/-- A visit whose pointers cannot be attributed is the last of the search. -/
theorem explore_cons_of_error {visit : Visit v} {rest : List (Visit v)} {seen : List v.Index}
    {e : DecodeError} (h : follow r visit (g.edgesFrom visit.object) seen = .error e) :
    explore r g (visit :: rest) seen = ([visit], some e) := by
  rw [explore]
  split
  · next e' he' =>
    rw [h] at he'
    cases he'
    rfl
  · next found hfound =>
    rw [h] at hfound
    cases hfound

/-- Otherwise the search goes on, with the finds of the visit behind all that waits. -/
theorem explore_cons_of_ok {visit : Visit v} {rest found : List (Visit v)} {seen : List v.Index}
    (h : follow r visit (g.edgesFrom visit.object) seen = .ok found) :
    explore r g (visit :: rest) seen =
      (visit :: (explore r g (rest ++ found) (found.map (·.object) ++ seen)).1,
        (explore r g (rest ++ found) (found.map (·.object) ++ seen)).2) := by
  rw [explore]
  split
  · next e he =>
    rw [h] at he
    cases he
  · next found' hfound' =>
    rw [h] at hfound'
    cases hfound'
    rfl

theorem search_nil (r : Registry) (g : ObjectGraph v) : search r g [] = ([], none) :=
  explore_nil []

theorem declarations_nil (d : Decoder) (g : ObjectGraph v) : declarations d g [] = pure [] := by
  unfold declarations
  rw [search_nil]
  rfl

/-- The visits keep the frontier, and none waits in the end. -/
theorem Frontier.explore {first done queue visits : List (Visit v)} {seen : List v.Index}
    {depth : v.Index → Nat} (h : Frontier g first done queue seen depth)
    (hrun : explore r g queue seen = (visits, none)) :
    ∃ seen' depth', Frontier g first (done ++ visits) [] seen' depth' := by
  induction queue, seen using explore.induct (r := r) (g := g) generalizing done visits depth with
  | case1 seen =>
    rw [explore_nil, Prod.mk.injEq] at hrun
    obtain ⟨rfl, -⟩ := hrun
    exact ⟨seen, depth, by simpa using h⟩
  | case2 seen visit rest e he =>
    rw [explore_cons_of_error he, Prod.mk.injEq] at hrun
    cases hrun.2
  | case3 seen visit rest found hfound visits' stop hvisits ih =>
    -- the visit is made, and the search goes on from the next frontier
    rw [explore_cons_of_ok hfound, Prod.mk.injEq] at hrun
    obtain ⟨rfl, hstop⟩ := hrun
    have hstep := h.step (followed hfound)
    have hrest := ih hstep (Prod.ext rfl hstop)
    rwa [List.append_assoc, List.singleton_append] at hrest

/-- A search that ends has found what can be reached, by no more pointers than it takes. -/
theorem Frontier.covers {first visits : List (Visit v)} {seen : List v.Index}
    {depth : v.Index → Nat} (h : Frontier g first visits [] seen depth) {s : Visit v}
    (hs : s ∈ first) {n : Nat} {i : v.Index} (hwalk : g.Walk s.object n i) :
    i ∈ seen ∧ depth i ≤ n := by
  induction hwalk with
  | refl =>
    obtain ⟨hmem, hzero⟩ := h.sources s hs
    exact ⟨hmem, Nat.le_of_eq hzero⟩
  | step hwalk hadjacent ih =>
    -- the object before the last one was visited, so its pointers were followed
    obtain ⟨hmem, hle⟩ := ih
    obtain ⟨w, hw, rfl⟩ := (h.mem_seen _).1 hmem
    rw [List.append_nil] at hw
    obtain ⟨hmem', hle'⟩ := h.closed w hw _ hadjacent
    exact ⟨hmem', Nat.le_trans hle' (Nat.succ_le_succ hle)⟩

/-! ### Distances -/

/-- **Search order.** The objects with the property that can be reached from the roots, each once
and nearer ones first. -/
structure SearchOrder (g : ObjectGraph v) (roots : List Root) (P : v.Index → Prop)
    (objects : List v.Index) (distance : v.Index → Nat) : Prop where
  nodup : objects.Nodup
  mem_iff : ∀ i, i ∈ objects ↔ P i ∧ ∃ n, g.ReachedFrom roots n i
  isDistance : ∀ i ∈ objects, g.IsDistance roots i (distance i)
  ordered : objects.Pairwise fun i j => distance i ≤ distance j

/-- Leaving objects out keeps the order and the distances of those that stay. -/
theorem SearchOrder.filter {roots : List Root} {objects : List v.Index} {distance : v.Index → Nat}
    (h : SearchOrder g roots (fun _ => True) objects distance) (P : v.Index → Bool) :
    SearchOrder g roots (fun i => P i = true) (objects.filter P) distance where
  nodup := h.nodup.filter P
  mem_iff i := by rw [List.mem_filter, h.mem_iff, and_comm, true_and]
  isDistance i hi := h.isDistance i (List.mem_filter.1 hi).1
  ordered := h.ordered.filter P

/-- **The whole search.** The visits of a search that ends without an error are in search order, and
each is made under a root from which a shortest walk leads to its object. -/
theorem frontier_search {roots : List Root} {visits : List (Visit v)}
    (h : search r g roots = (visits, none)) :
    ∃ distance, SearchOrder g roots (fun _ => True) (visits.map (·.object)) distance ∧
      ∀ w ∈ visits, ∃ root ∈ roots, root.name = w.root ∧
        ∃ j, v.find? root.name = some j ∧ g.Walk j (distance w.object) w.object := by
  -- the counts of pointers in the last frontier are the distances
  obtain ⟨seen, distance, hf⟩ := (Frontier.start g roots).explore h
  rw [List.nil_append] at hf
  have htraced : ∀ w ∈ visits, ∃ root ∈ roots, root.name = w.root ∧
      ∃ j, v.find? root.name = some j ∧ g.Walk j (distance w.object) w.object := by
    intro w hw
    obtain ⟨s, hs, hroot, hwalk⟩ := hf.traced w (List.mem_append_left _ hw)
    obtain ⟨-, root, hmem, hname, -, hfind⟩ := start_subset hs
    exact ⟨root, hmem, hname.symm.trans hroot, s.object, hfind, hwalk⟩
  -- no walk from a root is shorter
  have hcovers : ∀ n i, g.ReachedFrom roots n i → i ∈ seen ∧ distance i ≤ n := by
    rintro n i ⟨root, hroot, j, hj, hwalk⟩
    rcases start_covers [] hroot hj with hmem | ⟨s, hs, rfl⟩
    · cases hmem
    · -- a walk from any root starts at a source of the search
      exact hf.covers hs hwalk
  have hmem : ∀ i, i ∈ seen ↔ i ∈ visits.map (·.object) := by
    intro i
    rw [hf.mem_seen, List.append_nil, List.mem_map]
  -- and one has that length
  have hreached : ∀ i ∈ visits.map (·.object), g.ReachedFrom roots (distance i) i := by
    intro i hi
    obtain ⟨w, hw, rfl⟩ := List.mem_map.1 hi
    obtain ⟨root, hroot, -, j, hj, hwalk⟩ := htraced w hw
    exact ⟨root, hroot, j, hj, hwalk⟩
  refine ⟨distance, ⟨?_, ?_, ?_, ?_⟩, htraced⟩
  · simpa using hf.nodup
  · intro i
    rw [true_and]
    constructor
    · exact fun hi => ⟨distance i, hreached i hi⟩
    · rintro ⟨n, hn⟩
      exact (hmem i).1 (hcovers n i hn).1
  · exact fun i hi => ⟨hreached i hi, fun m hm => (hcovers m i hm).2⟩
  · rw [List.pairwise_map]
    simpa using hf.ordered

/-! ### Declarations -/

/-- The declaration of an object that was found from a root at the given distance. -/
def Declares (d : Decoder) (g : ObjectGraph v) (roots : List Root) (distance : v.Index → Nat)
    (i : v.Index) (o : LazyDeclaration) : Prop :=
  o.name = g.name i ∧
    (d.decode (v.object i).bytes o.type .lazy o.name).outcome = .ok o.view ∧
    ∃ root ∈ roots, root.name = o.root ∧
      ∃ j, v.find? root.name = some j ∧ g.Walk j (distance i) i

/-- A declaration has the name of the object in the graph, and its type and its root from the visit.
-/
theorem outcome_declare {d : Decoder} {visit : Visit v} {o : LazyDeclaration}
    (h : (declare d g visit).outcome = .ok o) :
    o.name = g.name visit.object ∧ o.type = visit.type ∧ o.root = visit.root ∧
      (d.decode (v.object visit.object).bytes visit.type .lazy (g.name visit.object)).outcome =
        .ok o.view := by
  unfold declare at h
  split at h
  · cases h
  · obtain ⟨view, hview, h⟩ := Traced.outcome_bind_eq_ok_iff.1 h
    cases h
    exact ⟨rfl, rfl, rfl, hview⟩

/-- Declarations are made of the lazy objects of a search that ends without an error. -/
theorem outcome_declarations {d : Decoder} {roots : List Root} {declared : List LazyDeclaration}
    (h : (declarations d g roots).outcome = .ok declared) :
    ∃ visits, search d.registry g roots = (visits, none) ∧
      List.Forall₂ (fun visit o => (declare d g visit).outcome = .ok o)
        (visits.filter fun visit => (v.object visit.object).isLazy) declared := by
  obtain ⟨-, -, h⟩ := Traced.outcome_bind_eq_ok_iff.1 h
  obtain ⟨declared', hdeclared, h⟩ := Traced.outcome_bind_eq_ok_iff.1 h
  split at h
  · exact absurd h (Traced.outcome_fail_ne_ok _ _)
  · next hstop =>
    cases h
    exact ⟨_, Prod.ext rfl hstop, Traced.outcome_mapM_eq_ok_iff.1 hdeclared⟩

/-- A lazy object that can be reached from the roots is declared under its name. -/
theorem exists_declaration_of_reached {d : Decoder} {roots : List Root}
    {declared : List LazyDeclaration} (h : (declarations d g roots).outcome = .ok declared)
    {i : v.Index} (hlazy : (v.object i).isLazy = true) {n : Nat} (hi : g.ReachedFrom roots n i) :
    ∃ o ∈ declared, o.name = g.name i := by
  obtain ⟨visits, hsearch, hdeclared⟩ := outcome_declarations h
  obtain ⟨distance, horder, -⟩ := frontier_search hsearch
  -- being reached, the object is visited; being lazy, its visit is declared
  obtain ⟨w, hw, rfl⟩ := List.mem_map.1 ((horder.mem_iff i).2 ⟨trivial, n, hi⟩)
  obtain ⟨o, ho, hdeclare⟩ := Traced.exists_result_of_mem
    (Traced.outcome_mapM_eq_ok_iff.2 hdeclared) (List.mem_filter.2 ⟨hw, hlazy⟩)
  exact ⟨o, ho, (outcome_declare hdeclare).1⟩

/-- **Declarations are exact.** If the lazy objects are declared, then those are declared that can
be reached from an object that a root names, each once and under its name in the graph. They are
declared in the order of their distance from the roots, each with a root of least distance. -/
theorem declarations_exact {d : Decoder} {g : ObjectGraph v} {roots : List Root}
    {declared : List LazyDeclaration} (h : (declarations d g roots).outcome = .ok declared) :
    ∃ objects distance,
      SearchOrder g roots (fun i => (v.object i).isLazy = true) objects distance ∧
        List.Forall₂ (Declares d g roots distance) objects declared := by
  obtain ⟨visits, hsearch, hdeclared⟩ := outcome_declarations h
  obtain ⟨distance, horder, htraced⟩ := frontier_search hsearch
  refine ⟨_, distance, horder.filter fun i => (v.object i).isLazy, ?_⟩
  rw [List.filter_map, List.forall₂_map_left_iff]
  -- each declaration is that of a visit, under the root of the visit
  have hboth := (List.forall₂_and_left _ _).2
    ⟨fun w hw => htraced w (List.mem_filter.1 hw).1, hdeclared⟩
  refine hboth.imp ?_
  rintro w o ⟨⟨root, hroot, hrootName, hwalk⟩, ho⟩
  obtain ⟨hname, htype, horigin, hview⟩ := outcome_declare ho
  refine ⟨hname, ?_, root, hroot, hrootName.trans horigin.symm, hwalk⟩
  rw [htype, hname]
  exact hview

/-- The declared object of the ring as a root. -/
def ringRoots : List Root := [⟨"head", (CType.simple "uint64_t").pointer⟩]

/-- The visits to the ring from the declared object: those that hold its first three pointers. -/
def ringVisits : List (Visit ObjectGraph.ringVector) :=
  (ObjectGraph.ring.edges.take 3).map fun e => ⟨e.owner, .simple "uint64_t", "head"⟩

/-- The search follows the ring once around and ends. -/
theorem search_ring : search {} .ring ringRoots = (ringVisits, none) := by
  change explore {} .ring [ringVisits[0]] [ringVisits[0].object] = _
  have first : follow {} ringVisits[0] (ObjectGraph.ring.edgesFrom ringVisits[0].object)
      [ringVisits[0].object] = .ok [ringVisits[1]] := rfl
  have second : follow {} ringVisits[1] (ObjectGraph.ring.edgesFrom ringVisits[1].object)
      [ringVisits[1].object, ringVisits[0].object] = .ok [ringVisits[2]] := rfl
  -- the last pointer of the ring leads back to the first object
  have third : follow {} ringVisits[2] (ObjectGraph.ring.edgesFrom ringVisits[2].object)
      [ringVisits[2].object, ringVisits[1].object, ringVisits[0].object] = .ok [] := rfl
  rw [explore_cons_of_ok first]
  simp only [List.map_cons, List.map_nil, List.nil_append, List.cons_append]
  rw [explore_cons_of_ok second]
  simp only [List.map_cons, List.map_nil, List.nil_append, List.cons_append]
  rw [explore_cons_of_ok third, List.nil_append, explore_nil]
  rfl

/-- From the declared object of the ring the other two are found, and nothing that leads into it. -/
theorem ring_declarations_exact :
    ∃ d declared, (declarations d .ring ringRoots).outcome = .ok declared ∧
      declared.map (·.name) = ["utbotInnerVar1", "utbotInnerVar2"] ∧
      ∃ objects distance,
        SearchOrder .ring ringRoots
            (fun i => (ObjectGraph.ringVector.object i).isLazy = true) objects distance ∧
          List.Forall₂ (Declares d .ring ringRoots distance) objects declared := by
  let d : Decoder := { table := ObjectGraph.ring.table, method := "sum" }
  have h : (declarations d .ring ringRoots).outcome =
      .ok [⟨"utbotInnerVar1", .simple "uint64_t", .primitive "48UL", "head"⟩,
        ⟨"utbotInnerVar2", .simple "uint64_t", .primitive "16UL", "head"⟩] := by
    have hsearch : search d.registry .ring ringRoots = (ringVisits, none) := search_ring
    unfold declarations
    rw [hsearch]
    rfl
  exact ⟨d, _, h, rfl, declarations_exact h⟩

end LazySearch

end SymVec

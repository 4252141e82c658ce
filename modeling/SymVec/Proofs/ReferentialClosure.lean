import SymVec.Proofs.AliasResolution
import SymVec.Proofs.BreadthFirst
import SymVec.Proofs.Readings

/-!
# Referential closure

A reference to a lazy object is of use only where the object is declared. The references of a test
case are reported when objects are decoded, by looking stored addresses up, and the declarations
come from a search along the pointers of the graph. The two meet where both of these hold: pointers
lead from a root to the object that holds the pointer, or to the one it leads to, and the graph
knows the pointer.

Then the search finds the object at the stored address, and it is declared under the name that the
address table has for it. Neither condition can be dropped. Global variables are no roots, so what
they alone refer to is not declared; and the table also knows the address in a pointer to a lazy
object, which need not be that of the object.

* `ObjectGraph.TableSound` — the table knows objects by their own address or by that in a pointer to
  them;
* `TestCase.Assembly.reached_references_declared` — the references of reached objects are declared;
* `TestCase.Assembly.exists_undeclared_reference` — others need not be.
-/

namespace SymVec

variable {v : TestVector} {pointerSize : Nat}

/-! ### Known addresses -/

namespace TestVector

/-- The object has that address. -/
def LiesAt (v : TestVector) (i : v.Index) (address : Nat) : Prop := (v.object i).address = address

instance (v : TestVector) (i : v.Index) (address : Nat) : Decidable (v.LiesAt i address) :=
  inferInstanceAs (Decidable (_ = _))

/-- An address by which an object is known: its own, or one stored in a pointer to it if it is
lazy. -/
def Known (v : TestVector) (pointerSize : Nat) (i : v.Index) (address : Nat) : Prop :=
  v.LiesAt i address ∨
    (v.object i).isLazy = true ∧ ∃ owner, ∃ slot ∈ (v.object owner).slots, slot.index = i.val ∧
      ((v.object owner).bytes.slice? slot.offset pointerSize).map Bytes.word = some address

instance (v : TestVector) (pointerSize : Nat) (i : v.Index) (address : Nat) :
    Decidable (v.Known pointerSize i address) :=
  inferInstanceAs (Decidable (_ ∨ _))

/-- No declared object has a name that begins like those that the graph gives. -/
def NamesApart (v : TestVector) : Prop :=
  ∀ i : v.Index, (v.object i).isLazy = false →
    Text.after? discoveredPrefix (v.object i).name = none

instance (v : TestVector) : Decidable v.NamesApart :=
  inferInstanceAs (Decidable (∀ i : v.Index, (v.object i).isLazy = false →
    Text.after? discoveredPrefix (v.object i).name = none))

end TestVector

namespace ObjectGraph

/-- **Sound table.** Each address in the table is one by which an object with a name is known, and
it has the name of that object. -/
def TableSound (g : ObjectGraph v) (pointerSize : Nat) : Prop :=
  ∀ address name, g.table.get? address = some name →
    ∃ i, g.isNamed i = true ∧ g.name i = name ∧ v.Known pointerSize i address

/-- Before the scan the table has declared objects only, each by its own address. -/
theorem tableSound_start (v : TestVector) (pointerSize : Nat) :
    TableSound ({ table := declaredTable v } : ObjectGraph v) pointerSize := by
  intro address name hknown
  change (declaredTable v).get? address = some name at hknown
  rw [declaredTable, AddressTable.get?_ofList] at hknown
  split at hknown
  · cases hknown
  · obtain ⟨o, ho, heq⟩ := List.mem_map.1 (Literal.mem_of_lookup hknown)
    cases heq
    -- the entry was made for a declared object of the list
    obtain ⟨hmem, hdeclared⟩ := List.mem_filter.1 ho
    obtain ⟨i, rfl⟩ := List.get_of_mem hmem
    refine ⟨i, isNamed_iff.2 (Or.inl ?_), ?_, Or.inl rfl⟩
    · change (v.objects.get i).isLazy = false
      simpa using hdeclared
    · exact name_of_not_mem_discovered List.not_mem_nil

/-- The discovery of an object makes it known by the address in the pointer and by its own. -/
theorem TableSound.discover {g : ObjectGraph v} (hg : g.TableSound pointerSize) {target : v.Index}
    (hnew : g.isNamed target = false) {stored : Bytes}
    (hstored : v.Known pointerSize target stored.word) :
    (g.discover target stored).TableSound pointerSize := by
  obtain ⟨-, hfresh⟩ := isNamed_eq_false_iff.1 hnew
  have hself : (g.discover target stored).isNamed target = true := by
    refine isNamed_iff.2 (Or.inr ?_)
    rw [discovered_discover]
    exact List.mem_append_right _ (List.mem_singleton.2 rfl)
  have hname : (g.discover target stored).name target =
      discoveredName (g.discovered.length + 1) := by
    rw [name_discover hfresh, if_pos rfl]
  intro address name hknown
  change ((g.table.insert _ _).insert _ _).get? address = some name at hknown
  rw [AddressTable.get?_insert, AddressTable.get?_insert, Option.or_eq_some_iff,
    Option.or_eq_some_iff] at hknown
  rcases hknown with (hbefore | ⟨-, hread⟩) | ⟨-, hown⟩
  · -- what was known has its name still, since it is another object
    obtain ⟨i, hi, rfl, hplace⟩ := hg address name hbefore
    have hother : i ≠ target := by
      rintro rfl
      rw [hnew] at hi
      cases hi
    refine ⟨i, ?_, ?_, hplace⟩
    · rcases isNamed_iff.1 hi with hdeclared | hfound
      · exact isNamed_iff.2 (Or.inl hdeclared)
      · refine isNamed_iff.2 (Or.inr ?_)
        rw [discovered_discover]
        exact List.mem_append_left _ hfound
    · rw [name_discover hfresh, if_neg hother]
  · -- the address in the pointer, which leads to the object
    split at hread
    · next haddress =>
      cases hread
      refine ⟨target, hself, hname, ?_⟩
      rw [haddress.1, ← Bytes.word_eq_value_mod]
      exact hstored
    · cases hread
  · -- the address of the object itself
    split at hown
    · next haddress =>
      cases hown
      exact ⟨target, hself, hname, Or.inl haddress.1.symm⟩
    · cases hown

/-- The table of a graph is sound. -/
theorem tableSound_build {g : ObjectGraph v} (h : build v pointerSize = .ok g) :
    g.TableSound pointerSize := by
  -- soundness is an invariant of the scan, in which only a discovery changes the table
  refine invariant_of_foldlM (P := fun g => g.TableSound pointerSize) h
    (tableSound_start v pointerSize) ?_
  rintro ⟨owner, slot⟩ hheld g g' hg hstep
  obtain ⟨target, htarget, ⟨-, rfl⟩ | ⟨hnew, stored, hread, rfl⟩⟩ := extend_cases hstep
  · exact hg
  · refine TableSound.discover (g := g.addEdge _) hg hnew (Or.inr ⟨?_, ?_⟩)
    · exact (isNamed_eq_false_iff.1 hnew).1
    · refine ⟨owner, slot, mem_slots.1 hheld, htarget.symm, ?_⟩
      rw [hread, Option.map_some]

end ObjectGraph

/-! ### Readings -/

namespace TestCase

/-- Each pointer slot of the reading that stores an address at which an object is taken to lie is
one of the pointers that the object read is known to hold, and leads to that object. The null
address is left out. -/
def Reading.Entered (x : Reading v) (d : Decoder) (lies : v.Index → Nat → Prop) : Prop :=
  ∀ found, d.slots x.type x.usage (v.object x.object).bytes.length x.name = some found →
    ∀ slot ∈ found, d.storedAddress (v.object x.object).bytes slot ≠ 0 →
      ∀ i, lies i (d.storedAddress (v.object x.object).bytes slot) →
        ⟨slot.offset, i.val⟩ ∈ (v.object x.object).slots

/-- A reading is judged by the slots that it has. -/
theorem entered_of_slots {x : Reading v} {d : Decoder} {lies : v.Index → Nat → Prop}
    (found : List PointerSlot)
    (hslots : d.slots x.type x.usage (v.object x.object).bytes.length x.name = some found)
    (h : ∀ slot ∈ found, d.storedAddress (v.object x.object).bytes slot ≠ 0 →
      ∀ i, lies i (d.storedAddress (v.object x.object).bytes slot) →
        ⟨slot.offset, i.val⟩ ∈ (v.object x.object).slots) : x.Entered d lies := by
  intro found' hfound'
  obtain rfl : found = found' := Option.some.inj (hslots.symm.trans hfound')
  exact h

/-- A reference of a reading leads along a pointer of the object read. -/
theorem exists_edge_of_reference {d : Decoder} {g : ObjectGraph v}
    (hg : ObjectGraph.build v d.registry.pointerSize = .ok g) (htable : d.table = g.table)
    {x : Reading v} (hentered : x.Entered d (v.Known d.registry.pointerSize)) {view : View}
    (hok : (x.decode d).outcome = .ok view) {r : Reference} (hr : r ∈ x.references d) :
    ∃ i, g.Adjacent x.object i ∧ g.isNamed i = true ∧ g.name i = r.referenced := by
  -- the reference is that of a slot, and the table knows the address stored there
  obtain ⟨found, hslots, hrefs, -, -⟩ := Decoder.accounted_decode _ _ _ _ view hok
  have hmem : r ∈ found.filterMap (d.referenceAt (v.object x.object).bytes) := hrefs ▸ hr
  obtain ⟨slot, hslot, hreference⟩ := List.mem_filterMap.1 hmem
  obtain ⟨name, hknown, rfl⟩ := Option.map_eq_some_iff.1 hreference
  rw [htable] at hknown
  obtain ⟨i, hnamed, hname, hplace⟩ := ObjectGraph.tableSound_build hg _ _ hknown
  have hnull : d.storedAddress (v.object x.object).bytes slot ≠ 0 := by
    intro hzero
    rw [hzero, AddressTable.get?_zero] at hknown
    cases hknown
  -- so the slot is a pointer of the graph, which has an edge for it
  have hentry := hentered found hslots slot hslot hnull i hplace
  refine ⟨i, ⟨⟨x.object, slot.offset, i⟩, ?_, rfl, rfl⟩, hnamed, hname⟩
  exact (ObjectGraph.mem_edges_build hg _).2 ⟨_, hentry, rfl, rfl⟩

/-- An object whose name in the graph is a generated one is lazy. -/
theorem isLazy_of_generated {g : ObjectGraph v} (hg : ObjectGraph.WellNamed g)
    (hapart : v.NamesApart) {i : v.Index} (hnamed : g.isNamed i = true) {n : Nat}
    (hname : g.name i = discoveredName n) : (v.object i).isLazy = true := by
  rcases ObjectGraph.isNamed_iff.1 hnamed with hdeclared | hfound
  · -- a declared object keeps its own name, which is no generated one
    have hown : i ∉ g.discovered := by
      intro hmem
      rw [hg.isLazy_of_mem i hmem] at hdeclared
      cases hdeclared
    rw [ObjectGraph.name_of_not_mem_discovered hown] at hname
    have hbegins := Text.after?_eq_some_iff.2 hname
    rw [hapart i hdeclared] at hbegins
    cases hbegins
  · exact hg.isLazy_of_mem i hfound

/-- A reference to a discovered object leads along a pointer to that object, which is declared if
either end of the pointer is reached. -/
theorem exists_target_of_reference {d : Decoder} {g : ObjectGraph v}
    (hg : ObjectGraph.build v d.registry.pointerSize = .ok g) (htable : d.table = g.table)
    (hapart : v.NamesApart) {roots : List Root} {declared : List LazyDeclaration}
    (hdeclared : (LazySearch.declarations d g roots).outcome = .ok declared)
    {x : Reading v} (hentered : x.Entered d (v.Known d.registry.pointerSize)) {view : View}
    (hok : (x.decode d).outcome = .ok view) {r : Reference} (hr : r ∈ x.references d) {k : Nat}
    (hgenerated : r.referenced = discoveredName k) :
    ∃ i, g.Adjacent x.object i ∧ g.name i = r.referenced ∧
      ((∃ n, g.ReachedFrom roots n x.object ∨ g.ReachedFrom roots n i) →
        ∃ o ∈ declared, o.name = r.referenced) := by
  obtain ⟨i, hadjacent, hnamed, hname⟩ := exists_edge_of_reference hg htable hentered hok hr
  have hlazy : (v.object i).isLazy = true :=
    isLazy_of_generated (ObjectGraph.wellNamed_build hg) hapart hnamed (hname.trans hgenerated)
  -- the search finds the object to which the pointer leads
  have htarget : ∀ n, g.ReachedFrom roots n i → ∃ o ∈ declared, o.name = r.referenced := by
    intro n hi
    obtain ⟨o, ho, honame⟩ := LazySearch.exists_declaration_of_reached hdeclared hlazy hi
    exact ⟨o, ho, honame.trans hname⟩
  refine ⟨i, hadjacent, hname, ?_⟩
  -- the pointer makes a walk to the object that holds it one step longer
  rintro ⟨n, ⟨root, hroot, j, hj, hwalk⟩ | hi⟩
  · exact htarget (n + 1) ⟨root, hroot, j, hj, hwalk.step hadjacent⟩
  · exact htarget n hi

/-! ### Cases -/

namespace Assembly

variable {a : Assembly}

/-- The readings of objects from which lazy objects are searched, and of those that are found. -/
def rootedReadings (a : Assembly) (g : ObjectGraph v) (returnType : CType) : List (Reading v) :=
  (a.method.parameters.filter fun p => !p.isFunctionPointer).flatMap
      (fun p => namedReading v p.name p.objectType .parameter) ++
    returnedReadings v returnType ++
    lazyReadings g (LazySearch.search a.registry g (a.roots returnType)).1

/-- Rooted readings are readings of the case. -/
theorem mem_readings_of_rooted {g : ObjectGraph v} {returnType : CType} {x : Reading v}
    (h : x ∈ a.rootedReadings g returnType) : x ∈ a.readings g returnType := by
  simp only [rootedReadings, List.mem_append] at h
  simp only [readings, variableReadings, List.mem_append]
  rcases h with (hparameter | hreturned) | hlazy
  · obtain ⟨p, hp, hx⟩ := List.mem_flatMap.1 hparameter
    obtain ⟨hp, hobject⟩ := List.mem_filter.1 hp
    -- a parameter is read before the call whether or not it can change
    have hbefore : x ∈ parameterReadings v p := by
      rw [parameterReadings, if_neg (by simpa using hobject)]
      exact List.mem_append_left _ hx
    have hparameters : x ∈ a.method.parameters.flatMap (parameterReadings v) :=
      List.mem_flatMap.2 ⟨p, hp, hbefore⟩
    simp [hparameters]
  · simp [hreturned]
  · simp [hlazy]

theorem find?_of_mem_namedReading {name : String} {t : CType} {usage : Usage} {x : Reading v}
    (h : x ∈ namedReading v name t usage) : v.find? name = some x.object := by
  obtain ⟨i, hi, rfl⟩ := List.mem_map.1 h
  exact Option.mem_toList.1 hi

/-- A rooted reading is of an object that can be reached from the roots. -/
theorem reached_of_rooted {d : Decoder} (hregistry : d.registry = a.registry) {g : ObjectGraph v}
    {returnType : CType} {declared : List LazyDeclaration}
    (hdeclared : (LazySearch.declarations d g (a.roots returnType)).outcome = .ok declared)
    {x : Reading v} (h : x ∈ a.rootedReadings g returnType) :
    ∃ n, g.ReachedFrom (a.roots returnType) n x.object := by
  simp only [rootedReadings, List.mem_append] at h
  rcases h with (hparameter | hreturned) | hlazy
  · -- the parameter is a root itself
    obtain ⟨p, hp, hx⟩ := List.mem_flatMap.1 hparameter
    have hroot : ⟨p.name, p.type⟩ ∈ a.roots returnType :=
      List.mem_append_left _ (List.mem_map_of_mem hp)
    exact ⟨0, _, hroot, x.object, find?_of_mem_namedReading hx, .refl⟩
  · -- the result is read only where it is a root
    unfold returnedReadings at hreturned
    split at hreturned
    · cases hreturned
    · next hchecked =>
      have hroot : ⟨resultName, returnType⟩ ∈ a.roots returnType := by
        refine List.mem_append_right _ ?_
        rw [if_neg hchecked]
        exact List.mem_singleton.2 rfl
      exact ⟨0, _, hroot, x.object, find?_of_mem_namedReading hreturned, .refl⟩
  · -- a lazy object is read because the search found it
    obtain ⟨visits, hsearch, -⟩ := LazySearch.outcome_declarations hdeclared
    obtain ⟨distance, horder, -⟩ := LazySearch.frontier_search hsearch
    rw [← hregistry, hsearch] at hlazy
    obtain ⟨w, hw, rfl⟩ := List.mem_map.1 hlazy
    have hvisit : w.object ∈ visits.map (·.object) :=
      List.mem_map_of_mem (List.mem_filter.1 hw).1
    exact ((horder.mem_iff _).1 hvisit).2

/-- **Admissible vector.** Declared objects are not named like discovered ones, and each pointer
slot of a reading that stores an address at which an object is taken to lie is one of the pointers
that the object read is known to hold. -/
structure Admissible (a : Assembly) (v : TestVector) (lies : v.Index → Nat → Prop) : Prop where
  apart : v.NamesApart
  entered : ∀ g predicate, ObjectGraph.build v a.registry.pointerSize = .ok g →
    a.predicate? = .ok predicate →
      ∀ x ∈ a.readings g (a.returnType predicate), x.Entered (a.decoder g.table) lies

/-- Without a predicate one graph and its readings are all that is asked about. -/
theorem admissible_of_readings (hfilters : a.filters.predicate = none) {g : ObjectGraph v}
    (hg : ObjectGraph.build v a.registry.pointerSize = .ok g) (hapart : v.NamesApart)
    {xs : List (Reading v)} (hreadings : a.readings g a.method.returnType = xs)
    {lies : v.Index → Nat → Prop} (h : ∀ x ∈ xs, x.Entered (a.decoder g.table) lies) :
    a.Admissible v lies where
  apart := hapart
  entered := by
    intro g' predicate hg' hpredicate x hx
    -- the return type is then that of the method
    rw [predicate?, hfilters] at hpredicate
    cases hpredicate
    obtain rfl : g = g' := Except.ok.inj (hg.symm.trans hg')
    change x ∈ a.readings g a.method.returnType at hx
    rw [hreadings] at hx
    exact h x hx

/-- **References between reached objects are declared.** The references of a case are those of its
readings. One to a discovered object leads along a pointer to it, and if pointers lead from the
object of a root to either end of this pointer, then the case has a declaration of that name. They
do so for the readings of the parameters before the call, of the returned value and of all lazy
objects. -/
theorem reached_references_declared {vectors : List TestVector} {cases : List TestCase}
    (h : (a.assemble vectors).1 = .ok cases)
    (hvectors : ∀ v ∈ vectors, a.Admissible v (v.Known a.registry.pointerSize))
    {c : TestCase} (hc : c ∈ cases) :
    ∃ predicate, a.predicate? = .ok predicate ∧ ∃ v ∈ vectors, ∃ g : ObjectGraph v,
      ObjectGraph.build v a.registry.pointerSize = .ok g ∧
      c.references =
        (a.readings g (a.returnType predicate)).flatMap (·.references (a.decoder g.table)) ∧
      (∀ x ∈ a.readings g (a.returnType predicate), ∀ r ∈ x.references (a.decoder g.table), ∀ k,
        r.referenced = discoveredName k →
          ∃ i, g.Adjacent x.object i ∧ g.name i = r.referenced ∧
            ((∃ n, g.ReachedFrom (a.roots (a.returnType predicate)) n x.object ∨
              g.ReachedFrom (a.roots (a.returnType predicate)) n i) →
                ∃ o ∈ c.lazyObjects, o.name = r.referenced)) ∧
      ∀ x ∈ a.rootedReadings g (a.returnType predicate),
        x ∈ a.readings g (a.returnType predicate) ∧
          ∃ n, g.ReachedFrom (a.roots (a.returnType predicate)) n x.object := by
  -- the case is drafted from one vector, and reports the readings of it
  obtain ⟨predicate, hpredicate, v, hv, g, hg, hdeclared, hrefs, hok⟩ := exists_of_assemble h hc
  have hadmissible := hvectors v hv
  refine ⟨predicate, hpredicate, v, hv, g, hg, hrefs, ?_, ?_⟩
  · intro x hx r hr k hgenerated
    obtain ⟨view, hview⟩ := hok x hx
    exact exists_target_of_reference hg rfl hadmissible.apart hdeclared
      (hadmissible.entered g predicate hg hpredicate x hx) hview hr hgenerated
  · intro x hx
    exact ⟨mem_readings_of_rooted hx, reached_of_rooted rfl hdeclared hx⟩

/-! ### Lists of nodes -/

/-- A function that takes a list node. -/
def nodeAssembly : Assembly where
  registry := .ofLists [Decoder.nodeRecord] [] 8
  method := { name := "f", parameters := [⟨"p", (CType.simple "node").pointer, none⟩] }

/-- A node that leads to a lazy one, which leads back to it. -/
def cycleVector : TestVector where
  objects :=
    [⟨"p", [7, 0, 0, 0, 0, 0, 0, 0, 0x30, 0, 0, 0, 0, 0, 0, 0], [⟨8, 1⟩], 0x10, false⟩,
      ⟨placeholderName, [9, 0, 0, 0, 0, 0, 0, 0, 0x10, 0, 0, 0, 0, 0, 0, 0], [⟨8, 0⟩], 0x30, true⟩]

/-- The graph of the two nodes. -/
def cycleGraph : ObjectGraph cycleVector where
  edges := [⟨(0 : Fin 2), 8, (1 : Fin 2)⟩, ⟨(1 : Fin 2), 8, (0 : Fin 2)⟩]
  discovered := [(1 : Fin 2)]
  table := ⟨[(0x10, "p"), (0x30, "utbotInnerVar1")]⟩

/-- The scan meets the lazy node at the first pointer. -/
theorem build_cycleVector : ObjectGraph.build cycleVector 8 = .ok cycleGraph := rfl

/-- Both nodes are visited, the one of the parameter first. -/
def cycleVisits : List (Visit cycleVector) :=
  [⟨(0 : Fin 2), .simple "node", "p"⟩, ⟨(1 : Fin 2), .simple "node", "p"⟩]

/-- At offset 8 of a node its pointer begins. -/
theorem memberAt?_nodeRecord :
    Decoder.nodeRecord.memberAt? 8 =
      some ⟨"next", (CType.simple "node").pointer, 8, none, 0⟩ := by
  rw [Record.memberAt?, Record.fieldsByOffset_of_sorted (by decide)]
  rfl

/-- The pointer owns offset 8 of a node. -/
theorem fieldOwning_node :
    nodeAssembly.registry.fieldOwning (.simple "node") 8 = .ok (CType.simple "node").pointer := by
  -- with one record the limit on nesting is two
  have hrecord : nodeAssembly.registry.recordOf (.simple "node") = .ok Decoder.nodeRecord := rfl
  change nodeAssembly.registry.fieldOwningWithin (1 + 1) _ _ = _
  rw [Registry.fieldOwningWithin, hrecord]
  simp only [bind, Except.bind]
  rw [memberAt?_nodeRecord]
  rfl

/-- It leads to another node. -/
theorem pointeeAt_node :
    LazySearch.pointeeAt nodeAssembly.registry (.simple "node") 8 = .ok (.simple "node") := by
  have hkind : nodeAssembly.registry.kindOf (.simple "node") = .struct := rfl
  have hsize : nodeAssembly.registry.sizeOf (.simple "node") = .ok 16 := rfl
  have hfield : nodeAssembly.registry.fieldOwning (.simple "node")
      (if 0 < 16 then 8 % 16 else 8) = .ok (CType.simple "node").pointer := fieldOwning_node
  unfold LazySearch.pointeeAt
  rw [hkind]
  simp only [hsize, hfield, Except.mapError, bind, Except.bind]
  rfl

/-- The search visits the two nodes and ends without an error. -/
theorem search_cycleGraph :
    LazySearch.search nodeAssembly.registry cycleGraph (nodeAssembly.roots .void) =
      (cycleVisits, none) := by
  change LazySearch.explore nodeAssembly.registry cycleGraph [cycleVisits[0]]
    [cycleVisits[0].object] = _
  have hedges : cycleGraph.edgesFrom cycleVisits[0].object =
      [⟨(0 : Fin 2), 8, (1 : Fin 2)⟩] := rfl
  have htype : cycleVisits[0].type = .simple "node" := rfl
  have first : LazySearch.follow nodeAssembly.registry cycleVisits[0]
      (cycleGraph.edgesFrom cycleVisits[0].object) [cycleVisits[0].object] =
        .ok [cycleVisits[1]] := by
    rw [hedges]
    unfold LazySearch.follow
    rw [if_neg (by decide), htype, pointeeAt_node]
    rfl
  -- the lazy node leads back to one that was seen
  have second : LazySearch.follow nodeAssembly.registry cycleVisits[1]
      (cycleGraph.edgesFrom cycleVisits[1].object)
      [cycleVisits[1].object, cycleVisits[0].object] = .ok [] := rfl
  rw [LazySearch.explore_cons_of_ok first]
  simp only [List.map_cons, List.map_nil, List.nil_append, List.cons_append]
  rw [LazySearch.explore_cons_of_ok second, List.nil_append, LazySearch.explore_nil]
  rfl

/-- The parameter is read before the call, as there is no object for it after, and then the lazy
node. -/
theorem readings_cycleVector :
    nodeAssembly.readings cycleGraph .void =
      [⟨(0 : Fin 2), .simple "node", .parameter, "p"⟩,
        ⟨(1 : Fin 2), .simple "node", .lazy, "utbotInnerVar1"⟩] := by
  unfold readings
  rw [search_cycleGraph]
  rfl

/-- Each of the two pointers is one that the vector tells of. -/
theorem admissible_cycleVector :
    nodeAssembly.Admissible cycleVector (cycleVector.Known 8) := by
  refine admissible_of_readings rfl build_cycleVector (by decide) readings_cycleVector ?_
  intro x hx
  simp only [List.mem_cons, List.not_mem_nil, or_false] at hx
  rcases hx with rfl | rfl
  · exact entered_of_slots [⟨"p.next", 8, (CType.simple "node").pointer⟩] rfl (by decide)
  · exact entered_of_slots [⟨"utbotInnerVar1.next", 8, (CType.simple "node").pointer⟩] rfl
      (by decide)

/-- The case refers from each node to the other. -/
theorem exists_case_cycleVector :
    ∃ c, (nodeAssembly.assemble [cycleVector]).1 = .ok [c] ∧
      c.references = [⟨"p.next", "utbotInnerVar1", "(node *)"⟩,
        ⟨"utbotInnerVar1.next", "p", "(node *)"⟩] := by
  obtain ⟨vars, hvars⟩ : ∃ vars, (nodeAssembly.decodeVariables
      (nodeAssembly.decoder cycleGraph.table) cycleVector .void).outcome = .ok vars := ⟨_, rfl⟩
  obtain ⟨declared, hdeclared⟩ : ∃ declared, (LazySearch.declarations
      (nodeAssembly.decoder cycleGraph.table) cycleGraph (nodeAssembly.roots .void)).outcome =
        .ok declared := by
    have hsearch : LazySearch.search (nodeAssembly.decoder cycleGraph.table).registry cycleGraph
        (nodeAssembly.roots .void) = (cycleVisits, none) := search_cycleGraph
    unfold LazySearch.declarations
    rw [hsearch]
    exact ⟨_, rfl⟩
  obtain ⟨c, hc, -, hrefs⟩ :=
    exists_case_of_unfiltered rfl rfl (by decide) build_cycleVector hvars hdeclared
  refine ⟨c, hc, ?_⟩
  change c.references = (nodeAssembly.readings cycleGraph .void).flatMap _ at hrefs
  rw [hrefs, readings_cycleVector]
  rfl

/-- The lazy node that the parameter leads to is declared. -/
theorem cycle_references_declared :
    ∃ c, (nodeAssembly.assemble [cycleVector]).1 = .ok [c] ∧
      nodeAssembly.Admissible cycleVector (cycleVector.Known 8) ∧
      ⟨"p.next", "utbotInnerVar1", "(node *)"⟩ ∈ c.references ∧
      ∃ o ∈ c.lazyObjects, o.name = "utbotInnerVar1" := by
  obtain ⟨c, hc, hrefs⟩ := exists_case_cycleVector
  refine ⟨c, hc, admissible_cycleVector, by simp [hrefs], ?_⟩
  have hvectors : ∀ v ∈ [cycleVector],
      nodeAssembly.Admissible v (v.Known nodeAssembly.registry.pointerSize) := by
    intro v hv
    rw [List.mem_singleton.1 hv]
    exact admissible_cycleVector
  obtain ⟨predicate, hpredicate, v, hv, g, hg, -, hdeclared, hrooted⟩ :=
    reached_references_declared hc hvectors (List.mem_singleton.2 rfl)
  cases hpredicate
  obtain rfl := List.mem_singleton.1 hv
  obtain rfl : cycleGraph = g := Except.ok.inj (build_cycleVector.symm.trans hg)
  have hfirst : (⟨(0 : Fin 2), .simple "node", .parameter, "p"⟩ : Reading cycleVector) ∈
      nodeAssembly.rootedReadings cycleGraph .void :=
    List.mem_append_left _ (List.mem_append_left _ (by decide))
  -- the parameter is itself a root
  obtain ⟨hreading, n, hreached⟩ := hrooted _ hfirst
  obtain ⟨i, -, -, htarget⟩ := hdeclared _ hreading ⟨"p.next", "utbotInnerVar1", "(node *)"⟩
    (List.mem_singleton.2 rfl) 1 rfl
  exact htarget ⟨n, Or.inl hreached⟩

/-! ### References without a declaration -/

/-- A function without parameters that uses a global list node. -/
def globalAssembly : Assembly where
  registry := .ofLists [Decoder.nodeRecord] [] 8
  method := { name := "f", globals := [⟨"g", .simple "node", none⟩] }

/-- A global node that leads to a lazy one before the call, and to none after it. -/
def globalVector : TestVector where
  objects :=
    [⟨"g", [7, 0, 0, 0, 0, 0, 0, 0, 0x30, 0, 0, 0, 0, 0, 0, 0], [⟨8, 2⟩], 0x10, false⟩,
      ⟨"g_post", [7, 0, 0, 0, 0, 0, 0, 0, 0, 0, 0, 0, 0, 0, 0, 0], [], 0x20, false⟩,
      ⟨placeholderName, [9, 0, 0, 0, 0, 0, 0, 0, 0, 0, 0, 0, 0, 0, 0, 0], [], 0x30, true⟩]

/-- The graph of the global node. -/
def globalGraph : ObjectGraph globalVector where
  edges := [⟨(0 : Fin 3), 8, (2 : Fin 3)⟩]
  discovered := [(2 : Fin 3)]
  table := ⟨[(0x10, "g"), (0x20, "g_post"), (0x30, "utbotInnerVar1")]⟩

/-- The scan meets the lazy node at the pointer of the global one. -/
theorem build_globalVector : ObjectGraph.build globalVector 8 = .ok globalGraph := rfl

/-- The global is read before and after the call, and nothing is searched from it. -/
theorem readings_globalVector :
    globalAssembly.readings globalGraph .void =
      [⟨(0 : Fin 3), .simple "node", .parameter, "g"⟩,
        ⟨(1 : Fin 3), .simple "node", .parameter, "g_post"⟩] := by
  have hsearch : LazySearch.search globalAssembly.registry globalGraph
      (globalAssembly.roots .void) = ([], none) := LazySearch.search_nil _ _
  unfold readings
  rw [hsearch]
  rfl

/-- The one pointer that is not null is known to the vector. -/
theorem admissible_globalVector :
    globalAssembly.Admissible globalVector globalVector.LiesAt := by
  refine admissible_of_readings rfl build_globalVector (by decide) readings_globalVector ?_
  intro x hx
  simp only [List.mem_cons, List.not_mem_nil, or_false] at hx
  rcases hx with rfl | rfl
  · exact entered_of_slots [⟨"g.next", 8, (CType.simple "node").pointer⟩] rfl (by decide)
  · exact entered_of_slots [⟨"g_post.next", 8, (CType.simple "node").pointer⟩] rfl (by decide)

/-- The case refers to the lazy node and declares none. -/
theorem exists_case_globalVector :
    ∃ c, (globalAssembly.assemble [globalVector]).1 = .ok [c] ∧ c.lazyObjects = [] ∧
      c.references = [⟨"g.next", "utbotInnerVar1", "(node *)"⟩] := by
  obtain ⟨vars, hvars⟩ : ∃ vars, (globalAssembly.decodeVariables
      (globalAssembly.decoder globalGraph.table) globalVector .void).outcome = .ok vars := ⟨_, rfl⟩
  have hdeclared : (LazySearch.declarations (globalAssembly.decoder globalGraph.table) globalGraph
      (globalAssembly.roots .void)).outcome = .ok [] :=
    congrArg Traced.outcome (LazySearch.declarations_nil _ _)
  obtain ⟨c, hc, hlazy, hrefs⟩ :=
    exists_case_of_unfiltered rfl rfl (by decide) build_globalVector hvars hdeclared
  refine ⟨c, hc, hlazy, ?_⟩
  change c.references = (globalAssembly.readings globalGraph .void).flatMap _ at hrefs
  rw [hrefs, readings_globalVector]
  rfl

/-- A node whose pointer leads into a lazy object, as does that of an object that is not read. -/
def interiorVector : TestVector where
  objects :=
    [⟨"p", [7, 0, 0, 0, 0, 0, 0, 0, 0x38, 0, 0, 0, 0, 0, 0, 0], [], 0x10, false⟩,
      ⟨"other", [0x38, 0, 0, 0, 0, 0, 0, 0], [⟨0, 2⟩], 0x20, false⟩,
      ⟨placeholderName, [9, 0, 0, 0, 0, 0, 0, 0, 0, 0, 0, 0, 0, 0, 0, 0], [], 0x30, true⟩]

/-- The graph in which the other object holds the pointer. -/
def interiorGraph : ObjectGraph interiorVector where
  edges := [⟨(1 : Fin 3), 0, (2 : Fin 3)⟩]
  discovered := [(2 : Fin 3)]
  table := ⟨[(0x10, "p"), (0x20, "other"), (0x38, "utbotInnerVar1"), (0x30, "utbotInnerVar1")]⟩

/-- The lazy node is known by its own address and by the one inside it. -/
theorem build_interiorVector : ObjectGraph.build interiorVector 8 = .ok interiorGraph := rfl

/-- Only the node of the parameter is visited. -/
def interiorVisits : List (Visit interiorVector) := [⟨(0 : Fin 3), .simple "node", "p"⟩]

/-- The search ends there, since the node holds no pointer of the graph. -/
theorem search_interiorGraph :
    LazySearch.search nodeAssembly.registry interiorGraph (nodeAssembly.roots .void) =
      (interiorVisits, none) := by
  change LazySearch.explore nodeAssembly.registry interiorGraph [interiorVisits[0]]
    [interiorVisits[0].object] = _
  have only : LazySearch.follow nodeAssembly.registry interiorVisits[0]
      (interiorGraph.edgesFrom interiorVisits[0].object) [interiorVisits[0].object] = .ok [] := rfl
  rw [LazySearch.explore_cons_of_ok only, List.nil_append, LazySearch.explore_nil]
  rfl

/-- Only the parameter is read. -/
theorem readings_interiorVector :
    nodeAssembly.readings interiorGraph .void =
      [⟨(0 : Fin 3), .simple "node", .parameter, "p"⟩] := by
  unfold readings
  rw [search_interiorGraph]
  rfl

/-- No object lies at the stored address, so nothing is asked of the pointer. -/
theorem admissible_interiorVector :
    nodeAssembly.Admissible interiorVector interiorVector.LiesAt := by
  refine admissible_of_readings rfl build_interiorVector (by decide) readings_interiorVector ?_
  intro x hx
  obtain rfl := List.mem_singleton.1 hx
  exact entered_of_slots [⟨"p.next", 8, (CType.simple "node").pointer⟩] rfl (by decide)

/-- The case refers to the lazy node and declares none. -/
theorem exists_case_interiorVector :
    ∃ c, (nodeAssembly.assemble [interiorVector]).1 = .ok [c] ∧ c.lazyObjects = [] ∧
      c.references = [⟨"p.next", "utbotInnerVar1", "(node *)"⟩] := by
  obtain ⟨vars, hvars⟩ : ∃ vars, (nodeAssembly.decodeVariables
      (nodeAssembly.decoder interiorGraph.table) interiorVector .void).outcome = .ok vars :=
    ⟨_, rfl⟩
  have hdeclared : (LazySearch.declarations (nodeAssembly.decoder interiorGraph.table)
      interiorGraph (nodeAssembly.roots .void)).outcome = .ok [] := by
    have hsearch : LazySearch.search (nodeAssembly.decoder interiorGraph.table).registry
        interiorGraph (nodeAssembly.roots .void) = (interiorVisits, none) := search_interiorGraph
    unfold LazySearch.declarations
    rw [hsearch]
    rfl
  obtain ⟨c, hc, hlazy, hrefs⟩ :=
    exists_case_of_unfiltered rfl rfl (by decide) build_interiorVector hvars hdeclared
  refine ⟨c, hc, hlazy, ?_⟩
  change c.references = (nodeAssembly.readings interiorGraph .void).flatMap _ at hrefs
  rw [hrefs, readings_interiorVector]
  rfl

/-- **References without a declaration.** A reference may lack its declaration where no pointer
leads from a root to the object that holds it, as with the global variable, and where the pointer is
known by its address alone, as with the one into the lazy object. -/
theorem exists_undeclared_reference :
    (globalVector.Placed ∧ globalAssembly.Admissible globalVector globalVector.LiesAt ∧
      ∃ c, (globalAssembly.assemble [globalVector]).1 = .ok [c] ∧
        ∃ r ∈ c.references, r.referenced = discoveredName 1 ∧
          ¬∃ o ∈ c.lazyObjects, o.name = r.referenced) ∧
    (interiorVector.Placed ∧ nodeAssembly.Admissible interiorVector interiorVector.LiesAt ∧
      ∃ c, (nodeAssembly.assemble [interiorVector]).1 = .ok [c] ∧
        ∃ r ∈ c.references, r.referenced = discoveredName 1 ∧
          ¬∃ o ∈ c.lazyObjects, o.name = r.referenced) := by
  refine ⟨⟨by decide, admissible_globalVector, ?_⟩, ⟨by decide, admissible_interiorVector, ?_⟩⟩
  · obtain ⟨c, hc, hlazy, hrefs⟩ := exists_case_globalVector
    refine ⟨c, hc, ⟨"g.next", "utbotInnerVar1", "(node *)"⟩, by simp [hrefs], rfl, ?_⟩
    simp [hlazy]
  · obtain ⟨c, hc, hlazy, hrefs⟩ := exists_case_interiorVector
    refine ⟨c, hc, ⟨"p.next", "utbotInnerVar1", "(node *)"⟩, by simp [hrefs], rfl, ?_⟩
    simp [hlazy]

end Assembly

end TestCase

end SymVec

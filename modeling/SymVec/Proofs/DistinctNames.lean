import Mathlib.Data.List.Nodup
import SymVec.Literal.Character
import SymVec.Proofs.FirstReferences

/-!
# Distinct names

A declaration in a generated test is found by its name, and an alias refers to it by that name.
Names have two sources: the engine names the declared objects, and the scan numbers the discovered
ones. The numbers make the names of discovered objects distinct from one another, but nothing keeps
the engine from giving such a name to an object that is not discovered.

So the names of the vector decide. Each address in the table stands for one object, the first that
was registered under it. The name in the table tells which object this is as long as no declared
object has one of the names that the scan gives out, of which there is one for each lazy object that
a pointer leads to.

* `TestVector.IsGenerated` — the names that the scan gives out;
* `ObjectGraph.registrations`, `ObjectGraph.get?_build` — whose name the table has for an address;
* `ObjectGraph.nodup_discoveredNames` — generated names are distinct;
* `ObjectGraph.name_injOn` — objects with a name of their own are told apart by it;
* `ObjectGraph.names_unambiguous` — when the names in the table are unambiguous.
-/

namespace SymVec

namespace TestVector

variable (v : TestVector)

/-- The declared objects. -/
def declared : List v.Index := v.indices.filter fun i => !(v.object i).isLazy

/-- The lazy objects that some pointer leads to. -/
def discoverable : List v.Index :=
  v.indices.filter fun i => (v.object i).isLazy && decide (v.IsReferenced i)

/-- No two declared objects have the same name. -/
def DistinctlyNamed : Prop :=
  ∀ i j : v.Index, (v.object i).isLazy = false → (v.object j).isLazy = false →
    (v.object i).name = (v.object j).name → i = j

instance : Decidable v.DistinctlyNamed :=
  inferInstanceAs (Decidable (∀ i j : v.Index, (v.object i).isLazy = false →
    (v.object j).isLazy = false → (v.object i).name = (v.object j).name → i = j))

/-- **Generated names**, one for each lazy object that some pointer leads to. -/
def IsGenerated (name : String) : Prop := ∃ k < v.discoverable.length, name = discoveredName (k + 1)

instance (name : String) : Decidable (v.IsGenerated name) :=
  inferInstanceAs (Decidable (∃ k < v.discoverable.length, name = discoveredName (k + 1)))

/-- The address that the first pointer to the object stores, if that pointer lies within the object
that holds it. -/
def storedAddress? (pointerSize : Nat) (i : v.Index) : Option Nat :=
  v.slots[v.firstReference i]?.bind fun held =>
    ((v.object held.1).bytes.slice? held.2.offset pointerSize).map fun stored =>
      Bytes.value stored % Word.limit

variable {v} {i : v.Index}

theorem mem_declared : i ∈ v.declared ↔ (v.object i).isLazy = false := by
  simp [declared, v.mem_indices]

theorem mem_discoverable :
    i ∈ v.discoverable ↔ (v.object i).isLazy = true ∧ v.IsReferenced i := by
  simp [discoverable, v.mem_indices]

/-- The declared objects of the vector in their order, by their indices. -/
theorem declared_map {α : Type} (f : MemoryObject → α) :
    (v.objects.filter fun o => !o.isLazy).map f = v.declared.map fun i => f (v.object i) := by
  -- the objects are those at the indices
  have hobjects : v.objects = v.indices.map v.object := by
    refine List.ext_getElem (by simp [indices]) fun n _ _ => ?_
    simp [object, indices]
  rw [hobjects, List.filter_map, List.map_map]
  rfl

end TestVector

namespace ObjectGraph

variable {v : TestVector} {pointerSize n : Nat} {g g' : ObjectGraph v}

/-! ### Registrations -/

/-- **Registrations.** The addresses under which objects are made known, in the order in which this
is done: declared objects under their own address, and a discovered object under the one in the
pointer that discovers it and under its own. -/
def registrations (g : ObjectGraph v) (pointerSize : Nat) : List (Nat × v.Index) :=
  v.declared.map (fun i => ((v.object i).address, i)) ++
    g.discovered.flatMap fun i =>
      (v.storedAddress? pointerSize i).toList.map (fun stored => (stored, i)) ++
        [((v.object i).address, i)]

/-- The object for which an address was first registered. The null address is never registered. -/
def registered? (g : ObjectGraph v) (pointerSize address : Nat) : Option v.Index :=
  if address = 0 then none else (g.registrations pointerSize).lookup address

/-- Only objects that have a name are registered. -/
theorem isNamed_of_mem_registrations {p : Nat × v.Index} (h : p ∈ g.registrations pointerSize) :
    g.isNamed p.2 = true := by
  rw [registrations, List.mem_append, List.mem_map, List.mem_flatMap] at h
  rcases h with ⟨i, hi, rfl⟩ | ⟨i, hi, hp⟩
  · exact isNamed_iff.2 (Or.inl (TestVector.mem_declared.1 hi))
  · rw [List.mem_append, List.mem_map, List.mem_singleton] at hp
    rcases hp with ⟨stored, -, rfl⟩ | rfl
    · exact isNamed_iff.2 (Or.inr hi)
    · exact isNamed_iff.2 (Or.inr hi)

/-- The table is made of the registrations. -/
def TableOf (g : ObjectGraph v) (pointerSize : Nat) : Prop :=
  g.table = AddressTable.ofList ((g.registrations pointerSize).map fun p => (p.1, g.name p.2))

/-- The scan starts with the declared objects, each under its own address. -/
theorem tableOf_start (v : TestVector) (pointerSize : Nat) :
    TableOf ({ table := declaredTable v } : ObjectGraph v) pointerSize := by
  unfold TableOf registrations
  rw [List.flatMap_nil, List.append_nil, List.map_map]
  change declaredTable v = _
  rw [declaredTable, TestVector.declared_map]
  rfl

/-- Discovery registers one more object, twice, and keeps the names of the others. -/
theorem TableOf.discover (hg : g.TableOf pointerSize) {target : v.Index}
    (hnew : g.isNamed target = false) {stored : Bytes}
    (hstored : v.storedAddress? pointerSize target = some (Bytes.value stored % Word.limit)) :
    (g.discover target stored).TableOf pointerSize := by
  obtain ⟨-, hfresh⟩ := isNamed_eq_false_iff.1 hnew
  -- the new object is the last to be registered
  have hregistered : (g.discover target stored).registrations pointerSize =
      g.registrations pointerSize ++
        [(Bytes.value stored % Word.limit, target), ((v.object target).address, target)] := by
    simp [registrations, hstored]
  have hself : (g.discover target stored).name target =
      discoveredName (g.discovered.length + 1) := by
    rw [name_discover hfresh, if_pos rfl]
  have hothers : (g.registrations pointerSize).map
        (fun p => (p.1, (g.discover target stored).name p.2)) =
      (g.registrations pointerSize).map fun p => (p.1, g.name p.2) := by
    refine List.map_congr_left fun p hp => ?_
    -- a registered object has a name, and the target had none
    have hother : p.2 ≠ target := by
      intro heq
      have hnamed := isNamed_of_mem_registrations hp
      rw [heq, hnew] at hnamed
      cases hnamed
    rw [name_discover hfresh, if_neg hother]
  unfold TableOf
  rw [hregistered, List.map_append, hothers, AddressTable.ofList, List.foldl_append]
  change (g.table.insert _ _).insert _ _ = _
  rw [hg, AddressTable.ofList, List.map_cons, List.map_cons, hself]
  rfl

/-- **The table of the graph** is made of its registrations. -/
theorem tableOf_build (h : build v pointerSize = .ok g) : g.TableOf pointerSize := by
  -- the scan also tells that a pointer that discovers an object is the first to it
  suffices hboth : Scanned g v.slots.length ∧ g.TableOf pointerSize from hboth.2
  refine scan_induction (P := fun g n => Scanned g n ∧ g.TableOf pointerSize)
    ⟨Scanned.start v, tableOf_start v pointerSize⟩ ?_ h
  rintro n ⟨owner, slot⟩ g g' hheld ⟨hscanned, hg⟩ hstep
  refine ⟨hscanned.extend hheld hstep, ?_⟩
  obtain ⟨target, htarget, ⟨-, rfl⟩ | ⟨hnew, stored, hslice, rfl⟩⟩ := extend_cases hstep
  · -- an edge alone registers nothing
    exact hg
  · have hfirst : v.firstReference target = n := hscanned.firstReference_eq hheld htarget.symm hnew
    have hstored : v.storedAddress? pointerSize target =
        some (Bytes.value stored % Word.limit) := by
      rw [TestVector.storedAddress?, hfirst, hheld, Option.bind_some, hslice, Option.map_some]
    exact TableOf.discover (g := g.addEdge ⟨owner, slot.offset, target⟩) hg hnew hstored

/-- What is looked up in a renamed list is renamed. -/
theorem lookup_map_snd {α β : Type} (f : α → β) (pairs : List (Nat × α)) (address : Nat) :
    (pairs.map fun p => (p.1, f p.2)).lookup address = (pairs.lookup address).map f := by
  induction pairs with
  | nil => rfl
  | cons p rest ih =>
    rw [List.map_cons, List.lookup_cons, List.lookup_cons]
    cases address == p.1 with
    | true => rfl
    | false => exact ih

/-- **The table names registered objects.** What it has for an address is the name of the object for
which the address was first registered. -/
theorem get?_build (h : build v pointerSize = .ok g) (address : Nat) :
    g.table.get? address = (g.registered? pointerSize address).map g.name := by
  have htable : g.table = _ := tableOf_build h
  rw [htable, AddressTable.get?_ofList, registered?, lookup_map_snd]
  split
  · rfl
  · rfl

/-- An object that is found by an address has a name. -/
theorem isNamed_of_registered? {address : Nat} {i : v.Index}
    (h : g.registered? pointerSize address = some i) : g.isNamed i = true := by
  rw [registered?] at h
  split at h
  · cases h
  · exact isNamed_of_mem_registrations (Literal.mem_of_lookup h)

/-! ### Names -/

/-- As many names are generated as objects are discovered. -/
theorem length_discovered_build (h : build v pointerSize = .ok g) :
    g.discovered.length = v.discoverable.length := by
  have hdiscoverable : v.discoverable.Nodup := (List.nodup_finRange _).filter _
  -- both lists name the referenced lazy objects, each once
  refine List.Perm.length_eq ((List.perm_ext_iff_of_nodup (wellNamed_build h).nodup
    hdiscoverable).2 fun i => ?_)
  rw [(scanned_build h).mem_discovered_iff, TestVector.mem_discoverable]

/-- The names of the discovered objects are the generated ones. -/
theorem isGenerated_iff (h : build v pointerSize = .ok g) {name : String} :
    v.IsGenerated name ↔ ∃ i ∈ g.discovered, g.name i = name := by
  have hnodup := (wellNamed_build h).nodup
  unfold TestVector.IsGenerated
  rw [← length_discovered_build h]
  constructor
  · rintro ⟨k, hk, rfl⟩
    exact ⟨g.discovered[k], List.getElem_mem hk, name_of_discovered hnodup hk⟩
  · rintro ⟨i, hi, rfl⟩
    obtain ⟨k, hk, rfl⟩ := List.mem_iff_getElem.1 hi
    exact ⟨k, hk, name_of_discovered hnodup hk⟩

/-- **Generated names are distinct**, whatever the engine calls its objects: no two discovered
objects have the same name. -/
theorem nodup_discoveredNames (h : build v pointerSize = .ok g) :
    (g.discovered.map g.name).Nodup :=
  (wellNamed_build h).nodup.map_on fun _ hi _ hj heq => eq_of_name_eq hi hj heq

/-- Objects that have a name are told apart by it if no declared object has a generated one. -/
theorem name_injOn (h : build v pointerSize = .ok g) (hdistinct : v.DistinctlyNamed)
    (hfree : ∀ i, (v.object i).isLazy = false → ¬v.IsGenerated (v.object i).name) {i j : v.Index}
    (hi : g.isNamed i = true) (hj : g.isNamed j = true) (heq : g.name i = g.name j) : i = j := by
  -- a declared object is never discovered, so it keeps its name
  have hkept : ∀ {k}, (v.object k).isLazy = false → g.name k = (v.object k).name := by
    intro k hk
    refine name_of_not_mem_discovered fun hfound => ?_
    have hlazy := (wellNamed_build h).isLazy_of_mem k hfound
    rw [hk] at hlazy
    cases hlazy
  -- each of the two is declared or discovered
  rcases isNamed_iff.1 hi with hi | hi <;> rcases isNamed_iff.1 hj with hj | hj
  · rw [hkept hi, hkept hj] at heq
    exact hdistinct i j hi hj heq
  · rw [hkept hi] at heq
    exact absurd ((isGenerated_iff h).2 ⟨j, hj, heq.symm⟩) (hfree i hi)
  · rw [hkept hj] at heq
    exact absurd ((isGenerated_iff h).2 ⟨i, hi, heq⟩) (hfree j hj)
  · exact eq_of_name_eq hi hj heq

/-- **Unambiguous names.** On a vector whose declared objects have distinct names, of which none is
generated, each name in the table belongs to one object, the one for which all addresses with this
name were registered. A discovered object shares its name with no other object exactly if none of
the objects that keep their names has a generated one. In every case the discovered objects have the
generated names, and no two of them the same. -/
theorem names_unambiguous {v : TestVector} {pointerSize : Nat} {g : ObjectGraph v}
    (hdistinct : v.DistinctlyNamed) (h : build v pointerSize = .ok g) :
    ((∀ i, (v.object i).isLazy = false → ¬v.IsGenerated (v.object i).name) →
      ∀ address name, g.table.get? address = some name →
        ∃ i, g.isNamed i = true ∧ g.name i = name ∧
          (∀ j, g.isNamed j = true → g.name j = name → j = i) ∧
          ∀ address', g.table.get? address' = some name →
            g.registered? pointerSize address' = some i) ∧
    ((∀ i, ((v.object i).isLazy = true → ¬v.IsReferenced i) →
        ¬v.IsGenerated (v.object i).name) ↔
      ∀ i ∈ g.discovered, ∀ j, j ≠ i → g.name j ≠ g.name i) ∧
    (g.discovered.map g.name).Nodup ∧
    ∀ name, name ∈ g.discovered.map g.name ↔ v.IsGenerated name := by
  -- an object keeps its name unless it is discovered
  have hkept : ∀ i, ((v.object i).isLazy = true → ¬v.IsReferenced i) ↔ i ∉ g.discovered := by
    intro i
    rw [(scanned_build h).mem_discovered_iff, not_and]
  simp only [hkept]
  refine ⟨fun hfree address name hknown => ?_, ⟨?_, ?_⟩, nodup_discoveredNames h, fun name => ?_⟩
  · -- the name belongs to the object that was registered under the address
    have hinj := fun {i j} => name_injOn (i := i) (j := j) h hdistinct hfree
    rw [get?_build h, Option.map_eq_some_iff] at hknown
    obtain ⟨i, hi, rfl⟩ := hknown
    have hnamed : g.isNamed i = true := isNamed_of_registered? hi
    refine ⟨i, hnamed, rfl, fun j hj heq => hinj hj hnamed heq, fun address' hknown' => ?_⟩
    rw [get?_build h, Option.map_eq_some_iff] at hknown'
    obtain ⟨j, hj, heq⟩ := hknown'
    rw [hj, hinj (isNamed_of_registered? hj) hnamed heq]
  · -- no other discovered object has the name, and the others keep names that are not generated
    intro hfree i hi j hne heq
    by_cases hj : j ∈ g.discovered
    · exact hne (eq_of_name_eq hj hi heq)
    · rw [name_of_not_mem_discovered hj] at heq
      exact hfree j hj ((isGenerated_iff h).2 ⟨i, hi, heq.symm⟩)
  · -- a generated name of an object that keeps its own is also that of a discovered one
    intro hapart j hj hgenerated
    obtain ⟨i, hi, heq⟩ := (isGenerated_iff h).1 hgenerated
    refine hapart i hi j (fun hji => hj (hji ▸ hi)) ?_
    rw [name_of_not_mem_discovered hj, heq]
  · -- the generated names are those of the discovered objects
    rw [List.mem_map, isGenerated_iff h]

/-- In the ring the name of the last object, which nothing leads to, is not generated. So the object
at the address `0x30` is told apart by its name, and the discovered objects are by theirs. -/
theorem ring_names_unambiguous :
    ring.table.get? 0x30 = some "utbotInnerVar2" ∧
      (∃ i, ring.name i = "utbotInnerVar2" ∧
        (∀ j, ring.isNamed j = true → ring.name j = "utbotInnerVar2" → j = i) ∧
        ∀ address, ring.table.get? address = some "utbotInnerVar2" →
          ring.registered? 8 address = some i) ∧
      (ring.discovered.map ring.name).Nodup ∧
      ∀ name, name ∈ ring.discovered.map ring.name ↔ ringVector.IsGenerated name := by
  have hknown : ring.table.get? 0x30 = some "utbotInnerVar2" := by decide
  obtain ⟨htable, -, hnodup, hgenerated⟩ :=
    names_unambiguous (v := ringVector) (by decide) build_ring
  obtain ⟨i, -, hname, honly, hregistered⟩ := htable (by decide) 0x30 "utbotInnerVar2" hknown
  exact ⟨hknown, ⟨i, hname, honly, hregistered⟩, hnodup, hgenerated⟩

/-- A declared object with the name that the scan gives to the object it points to, and a lazy
object with this name that no pointer leads to. -/
def namesakeVector : TestVector where
  objects :=
    [⟨discoveredName 1, [0x30, 0, 0, 0, 0, 0, 0, 0], [⟨0, 1⟩], 0x10, false⟩,
      ⟨placeholderName, [5, 0, 0, 0], [], 0x30, true⟩,
      ⟨discoveredName 1, [7, 0, 0, 0], [], 0x40, true⟩]

/-- The graph of these objects. -/
def namesakes : ObjectGraph namesakeVector where
  edges := [⟨⟨0, by decide⟩, 0, ⟨1, by decide⟩⟩]
  discovered := [⟨1, by decide⟩]
  table := ⟨[(0x10, discoveredName 1), (0x30, discoveredName 1)]⟩

/-- It is the graph that is built. -/
theorem build_namesakes : build namesakeVector 8 = .ok namesakes := rfl

/-- **Names can be ambiguous** although the declared objects have distinct names: the table has one
name for the addresses of two objects, and this is also the name of a lazy object that it does not
know. -/
theorem exists_ambiguous_name :
    ∃ (v : TestVector) (g : ObjectGraph v) (address address' : Nat) (i j k : v.Index)
      (name : String),
      v.DistinctlyNamed ∧ build v 8 = .ok g ∧
        g.table.get? address = some name ∧ g.table.get? address' = some name ∧
        g.registered? 8 address = some i ∧ g.registered? 8 address' = some j ∧ i ≠ j ∧
        (v.object i).isLazy = false ∧ j ∈ g.discovered ∧ g.name i = g.name j ∧
        (v.object k).isLazy = true ∧ k ≠ j ∧ g.name k = g.name j :=
  ⟨namesakeVector, namesakes, 0x10, 0x30, ⟨0, by decide⟩, ⟨1, by decide⟩, ⟨2, by decide⟩,
    discoveredName 1, by decide, build_namesakes, by decide⟩

end ObjectGraph

end SymVec

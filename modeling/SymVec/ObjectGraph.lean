import SymVec.AddressTable
import SymVec.DecodeError
import SymVec.TestVector

/-!
# Object graphs

The objects of a test vector and the pointers between them. A lazy object has no name of its own: it
is *discovered* by the first pointer to it, in the order in which objects hold pointers, and named
after the place of its discovery.

Declared objects are known by their address. A lazy object is known by the address stored in the
pointer that discovers it, and by its own if that is another.

* `ObjectGraph.name_of_not_mem_discovered` — an object that is not discovered keeps its name;
* `ObjectGraph.name_of_discovered` — the object discovered at place `k` is called after `k + 1`;
* `ObjectGraph.edges_extend` — taking in one more pointer adds one edge, at the end.
-/

namespace SymVec

/-- What the names of discovered objects begin with. -/
def discoveredPrefix : String := "utbotInnerVar"

/-- The name of the object that is discovered as number `n`. -/
def discoveredName (n : Nat) : String := discoveredPrefix ++ toString n

/-- A pointer from one object to another. -/
structure Edge (v : TestVector) where
  owner : v.Index
  /-- The byte of the owner at which the pointer starts. -/
  offset : Nat
  target : v.Index
  deriving DecidableEq, Repr

/-- The pointers between the objects of a test vector, and the names that follow from them. -/
structure ObjectGraph (v : TestVector) where
  edges : List (Edge v) := []
  /-- The lazy objects that a pointer leads to, by the first such pointer. -/
  discovered : List v.Index := []
  table : AddressTable := ∅

namespace ObjectGraph

variable {v : TestVector}

/-- The name of an object. -/
def name (g : ObjectGraph v) (i : v.Index) : String :=
  -- numbers start at one
  if i ∈ g.discovered then discoveredName (g.discovered.idxOf i + 1) else (v.object i).name

/-- Whether an object has a name to which a reference can be made. -/
def isNamed (g : ObjectGraph v) (i : v.Index) : Bool :=
  !(v.object i).isLazy || decide (i ∈ g.discovered)

/-- The pointers that an object holds. -/
def edgesFrom (g : ObjectGraph v) (i : v.Index) : List (Edge v) :=
  g.edges.filter fun e => e.owner = i

/-- The addresses of the declared objects. -/
def declaredTable (v : TestVector) : AddressTable :=
  AddressTable.ofList
    ((v.objects.filter fun o => !o.isLazy).map fun o => (o.address, o.name))

/-- A lazy object named, and made known by the address stored in a pointer to it and by its own. -/
def discover (g : ObjectGraph v) (target : v.Index) (stored : Bytes) : ObjectGraph v :=
  -- the number is counted before the object joins the others
  let name := discoveredName (g.discovered.length + 1)
  { g with
    discovered := g.discovered ++ [target]
    table := (g.table.insert (Bytes.value stored % Word.limit) name).insert
      (v.object target).address name }

/-- One more edge. -/
def addEdge (g : ObjectGraph v) (e : Edge v) : ObjectGraph v := { g with edges := g.edges ++ [e] }

/-- **One more pointer.** Its edge is added, and the object it leads to is discovered if it has no
name yet. -/
def extend (pointerSize : Nat) (g : ObjectGraph v) (held : v.Index × Slot) :
    Except DecodeError (ObjectGraph v) :=
  let (owner, slot) := held
  let holder := v.object owner
  if h : slot.index < v.objects.length then
    let target : v.Index := ⟨slot.index, h⟩
    let g := g.addEdge ⟨owner, slot.offset, target⟩
    if g.isNamed target then .ok g
    else
      -- only a pointer that discovers an object is read
      match holder.bytes.slice? slot.offset pointerSize with
      | some stored => .ok (g.discover target stored)
      | none => .error (.outOfBounds slot.offset pointerSize holder.bytes.length)
  else .error (.malformed s!"object {holder.name} points to missing object {slot.index}")

/-- **Object graph** of a test vector, for pointers of the given size. -/
def build (v : TestVector) (pointerSize : Nat) : Except DecodeError (ObjectGraph v) :=
  -- declared objects are known before any pointer is taken in
  v.slots.foldlM (extend pointerSize) { table := declaredTable v }

/-! ### Names and edges -/

/-- An object that is not discovered keeps its name. -/
theorem name_of_not_mem_discovered {g : ObjectGraph v} {i : v.Index} (h : i ∉ g.discovered) :
    g.name i = (v.object i).name := by
  simp [name, h]

/-- The object discovered at place `k` is called after `k + 1`. -/
theorem name_of_discovered {g : ObjectGraph v} (distinct : g.discovered.Nodup) {k : Nat}
    (h : k < g.discovered.length) : g.name g.discovered[k] = discoveredName (k + 1) := by
  have hmem : g.discovered[k] ∈ g.discovered := List.getElem_mem h
  rw [name, if_pos hmem, List.Nodup.idxOf_getElem distinct]

/-- Taking in one more pointer adds one edge, at the end. -/
theorem edges_extend {pointerSize : Nat} {g g' : ObjectGraph v} {held : v.Index × Slot}
    (h : extend pointerSize g held = .ok g') :
    ∃ hindex : held.2.index < v.objects.length,
      g'.edges = g.edges ++ [⟨held.1, held.2.offset, ⟨held.2.index, hindex⟩⟩] := by
  obtain ⟨owner, slot⟩ := held
  unfold extend at h
  -- the edge is added before it is asked whether its target is new
  by_cases hindex : slot.index < v.objects.length
  · refine ⟨hindex, ?_⟩
    simp only [hindex, dif_pos] at h
    split at h
    · cases h
      rfl
    · split at h
      · cases h
        rfl
      · cases h
  · simp [hindex] at h

end ObjectGraph

end SymVec

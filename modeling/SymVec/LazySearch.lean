import SymVec.Decoder.Value
import SymVec.ObjectGraph
import SymVec.Registry.FieldOwning

/-!
# Search for lazy objects

Lazy objects have no declared type. They are found by a breadth-first search along the pointers,
from the objects whose types are declared, the *roots*; each object gets its type from the pointer
by which it is found first. Then they are decoded in the order in which they were found.

* `LazySearch.pointeeAt` — the type behind a pointer, by the place at which it is stored;
* `LazySearch.follow` — the unseen objects behind the pointers of a visited one;
* `LazySearch.unseen_follow` — each step of the search uses up as many unseen objects as it finds,
  so the search ends;
* `LazySearch.search` — the visits in order, and the error that ended the search if one did;
* `LazySearch.declarations` — the found lazy objects, decoded.
-/

namespace SymVec

/-- A declared variable from which pointers are followed. -/
structure Root where
  name : String
  type : CType
  deriving DecidableEq, Repr

/-- A lazy object with its name and type, to be declared on its own. -/
structure LazyDeclaration where
  name : String
  type : CType
  view : View
  /-- The name of the root from which it was reached. -/
  root : String

/-- An object that the search has found. -/
structure Visit (v : TestVector) where
  object : v.Index
  type : CType
  root : String
  deriving DecidableEq, Repr

namespace LazySearch

variable {v : TestVector}

/-! ### Types behind pointers -/

/-- The type that a member leads to: through a pointer, through an array of pointers, or itself
where it is a primitive value that serves as a pointer. -/
def targetOf? (r : Registry) (t : CType) : Option CType :=
  match r.kindOf t with
  | .objectPointer => some t.pointee
  -- a scalar with the address of an object in it leads to a value of its own type
  | .primitive => some t
  | .array =>
    -- below its leading arrays the elements are what the pointer is one of
    let element := t.under (t.levels.takeWhile (· != .pointer)).length
    if element.isObjectPointer then some element.pointee else none
  | _ => none

/-- **Type behind a pointer** stored at a byte of an object. A buffer may hold several structures in
a row, all of which have the same members. -/
def pointeeAt (r : Registry) (t : CType) (offset : Nat) : Except DecodeError CType :=
  match r.kindOf t with
  | .struct => do
    let size ← (r.sizeOf t).mapError .layout
    -- the place within the structure that holds the byte
    let inElement := if 0 < size then offset % size else offset
    let member ← (r.fieldOwning t inElement).mapError .layout
    match targetOf? r member with
    | some target => .ok target
    | none => .error (.malformed s!"offset {offset} in {t.displayName} does not hold a pointer")
  | .objectPointer => .ok t.pointee
  | .primitive => .ok t
  | _ => .error (.malformed s!"offset {offset} in {t.displayName} cannot hold a pointer")

/-! ### Breadth-first search -/

/-- The type of the object that a root names: behind a pointer, that of what it leads to. -/
def rootType (t : CType) : CType := if t.isObjectPointer then t.baseType else t

/-- The objects of the roots, each once and under the first root that names it. -/
def start (v : TestVector) : List Root → List v.Index → List (Visit v)
  | [], _ => []
  | root :: rest, seen =>
    match v.find? root.name with
    | none => start v rest seen
    | some i =>
      -- an earlier root decides about the type
      if seen.contains i then start v rest seen
      else ⟨i, rootType root.type, root.name⟩ :: start v rest (i :: seen)

/-- The roots that name no object. -/
def missingRoots (v : TestVector) (roots : List Root) : List Root :=
  roots.filter fun root => (v.find? root.name).isNone

/-- The unseen objects behind the pointers of a visited one. -/
def follow (r : Registry) (visit : Visit v) :
    List (Edge v) → List v.Index → Except DecodeError (List (Visit v))
  | [], _ => .ok []
  | edge :: rest, seen =>
    if seen.contains edge.target then follow r visit rest seen
    else do
      let t ← pointeeAt r visit.type edge.offset
      -- the target is seen from here on, so a later pointer to it does not count
      let found ← follow r visit rest (edge.target :: seen)
      .ok (⟨edge.target, t, visit.root⟩ :: found)

/-- The number of objects that have not been seen. -/
def unseen (seen : List v.Index) : Nat := (v.indices.filter fun i => !seen.contains i).length

/-- How many objects are unseen depends on which ones are seen, not on their order. -/
theorem unseen_congr {seen seen' : List v.Index} (h : ∀ i, i ∈ seen ↔ i ∈ seen') :
    unseen seen = unseen seen' := by
  unfold unseen
  congr 1
  apply List.filter_congr
  intro i _
  simp [h i]

/-- An object that is seen for the first time leaves the unseen ones. -/
theorem unseen_cons {seen : List v.Index} {i : v.Index} (h : i ∉ seen) :
    unseen (i :: seen) < unseen seen := by
  have hfilter : (v.indices.filter fun j => !(i :: seen).contains j) =
      (v.indices.filter fun j => !seen.contains j).filter (· ≠ i) := by
    rw [List.filter_filter]
    apply List.filter_congr
    intro j _
    simp
  rw [unseen, hfilter]
  exact List.length_filter_lt_length_iff_exists.2 ⟨i, by simp [h, v.mem_indices i], by simp⟩

/-- Each step of the search uses up as many unseen objects as it finds. -/
theorem unseen_follow {r : Registry} {visit : Visit v} {edges : List (Edge v)}
    {seen : List v.Index} {found : List (Visit v)} (h : follow r visit edges seen = .ok found) :
    unseen (found.map (·.object) ++ seen) + found.length ≤ unseen seen := by
  induction edges generalizing seen found with
  | nil =>
    cases h
    simp
  | cons edge rest ih =>
    unfold follow at h
    split at h
    · -- a target that was seen before adds nothing
      exact ih h
    · next hknown =>
      have hnew : edge.target ∉ seen := by simpa using hknown
      cases ht : pointeeAt r visit.type edge.offset with
      | error e => simp [ht, bind, Except.bind] at h
      | ok t =>
        cases hf : follow r visit rest (edge.target :: seen) with
        | error e => simp [ht, hf, bind, Except.bind] at h
        | ok more =>
          simp only [ht, hf, bind, Except.bind, Except.ok.injEq] at h
          subst h
          have hmore := ih hf
          have hcons := unseen_cons hnew
          -- the order in which objects were seen does not matter
          have hperm : unseen ((⟨edge.target, t, visit.root⟩ :: more).map (·.object) ++ seen) =
              unseen (more.map (·.object) ++ edge.target :: seen) := by
            apply unseen_congr
            intro i
            simp only [List.map_cons, List.cons_append, List.mem_cons, List.mem_append]
            exact ⟨fun h => by rcases h with h | h | h <;> simp [h],
              fun h => by rcases h with h | h | h <;> simp [h]⟩
          rw [hperm, List.length_cons]
          omega

/-- **Breadth-first search.** The visits in the order in which they are made, and the error that
ended the search if one did. The objects in `queue` wait to be visited; those in `seen` have been
found. -/
def explore (r : Registry) (g : ObjectGraph v) (queue : List (Visit v)) (seen : List v.Index) :
    List (Visit v) × Option DecodeError :=
  match queue with
  | [] => ([], none)
  | visit :: rest =>
    match _h : follow r visit (g.edgesFrom visit.object) seen with
    | .error e => ([visit], some e)
    | .ok found =>
      let (visits, stop) := explore r g (rest ++ found) (found.map (·.object) ++ seen)
      (visit :: visits, stop)
termination_by unseen seen + queue.length
decreasing_by
  -- the visit leaves the queue, and what joins the queue leaves the unseen objects
  have := unseen_follow _h
  simp
  omega

/-- The whole search from the given roots. -/
def search (r : Registry) (g : ObjectGraph v) (roots : List Root) :
    List (Visit v) × Option DecodeError :=
  let first := start v roots []
  explore r g first (first.map (·.object))

/-! ### Declarations -/

/-- A found lazy object, decoded. It must have a type that is more than `void`. -/
def declare (d : Decoder) (g : ObjectGraph v) (visit : Visit v) : Traced LazyDeclaration :=
  let name := g.name visit.object
  -- `void` behind a pointer says nothing about the bytes
  if visit.type.baseIsVoid then
    .fail (.unsupported s!"lazy object {name} of type {visit.type.displayName}")
  else do
    let view ← d.decode (v.object visit.object).bytes visit.type .lazy name
    pure ⟨name, visit.type, view, visit.root⟩

/-- **Declarations** of the lazy objects that can be reached from the roots, in the order in which
they are found. -/
def declarations (d : Decoder) (g : ObjectGraph v) (roots : List Root) :
    Traced (List LazyDeclaration) := do
  (missingRoots v roots).forM fun root => Traced.warn (.missingRoot root.name)
  let (visits, stop) := search d.registry g roots
  -- what was found before the search failed is decoded first, and its errors win
  let declared ← (visits.filter fun visit => (v.object visit.object).isLazy).mapM (declare d g)
  match stop with
  | some e => .fail e
  | none => pure declared

end LazySearch

end SymVec

import SymVec.Decoder.Scalar
import SymVec.Proofs.Discovery

/-!
# Resolution of aliases

A stored pointer is read twice: when the graph is built, to learn at which address a lazy object
lies, and when the object that holds it is decoded, to look that address up. On consistent vectors
the two readings meet. Every stored pointer is then resolved to the name of the object it leads to,
and the table knows no address that is not the address of a named object.

The table keeps the first name it is given for an address. That no name is lost by this is the
content of `ObjectGraph.TableExact`, which holds after every pointer of the scan: when a lazy object
is discovered, its address is not in the table yet, for otherwise another object would have that
address.

* `TestVector.Consistent` — the vectors in question;
* `ObjectGraph.exists_build_of_consistent` — the scan succeeds on them and leaves an exact table;
* `ObjectGraph.aliases_resolve` — what the decoder reads at a stored pointer is the name of its
  target.
-/

namespace SymVec

/-- No two objects have the same address, and none lies at the null address. -/
structure TestVector.Placed (v : TestVector) : Prop where
  address_injective : ∀ i j : v.Index, (v.object i).address = (v.object j).address → i = j
  address_ne_zero : ∀ i : v.Index, (v.object i).address ≠ 0

/-- **Consistent vector.** The objects have addresses of their own, and every pointer is stored
within its object, as the address of the object that it is said to lead to. -/
structure TestVector.Consistent (v : TestVector) (pointerSize : Nat) : Prop extends v.Placed where
  stored : ∀ i : v.Index, ∀ slot ∈ (v.object i).slots, ∃ target : v.Index, target.val = slot.index ∧
    ((v.object i).bytes.slice? slot.offset pointerSize).map Bytes.word =
      some (v.object target).address

instance (v : TestVector) : Decidable v.Placed :=
  decidable_of_iff
    ((∀ i j : v.Index, (v.object i).address = (v.object j).address → i = j) ∧
      ∀ i : v.Index, (v.object i).address ≠ 0)
    ⟨fun ⟨injective, nonzero⟩ => ⟨injective, nonzero⟩,
      fun ⟨injective, nonzero⟩ => ⟨injective, nonzero⟩⟩

instance (v : TestVector) (pointerSize : Nat) : Decidable (v.Consistent pointerSize) :=
  decidable_of_iff
    (v.Placed ∧
      ∀ i : v.Index, ∀ slot ∈ (v.object i).slots, ∃ target : v.Index, target.val = slot.index ∧
        ((v.object i).bytes.slice? slot.offset pointerSize).map Bytes.word =
          some (v.object target).address)
    ⟨fun ⟨placed, stored⟩ => ⟨placed, stored⟩, fun ⟨placed, stored⟩ => ⟨placed, stored⟩⟩

namespace ObjectGraph

variable {v : TestVector} {pointerSize : Nat}

/-- **Exact table.** The table knows the addresses of the objects that have a name, each under the
name of its object, and no others. -/
def TableExact (g : ObjectGraph v) : Prop :=
  ∀ address name, g.table.get? address = some name ↔
    ∃ i, (v.object i).address = address ∧ g.isNamed i = true ∧ g.name i = name

/-! ### Declared objects -/

theorem mem_declared {address : Nat} {name : String} :
    (address, name) ∈ ((v.objects.filter fun o => !o.isLazy).map fun o => (o.address, o.name)) ↔
      ∃ i : v.Index, (v.object i).address = address ∧ (v.object i).isLazy = false ∧
        (v.object i).name = name := by
  simp only [List.mem_map, List.mem_filter, Bool.not_eq_true', Prod.mk.injEq]
  constructor
  · rintro ⟨o, ⟨ho, hdeclared⟩, haddress, hname⟩
    obtain ⟨i, rfl⟩ := List.get_of_mem ho
    exact ⟨i, haddress, hdeclared, hname⟩
  · rintro ⟨i, haddress, hdeclared, hname⟩
    exact ⟨v.object i, ⟨List.get_mem _ _, hdeclared⟩, haddress, hname⟩

/-- Before the scan the table knows the declared objects, and these are the ones with a name. -/
theorem tableExact_start (h : v.Placed) :
    TableExact { table := declaredTable v : ObjectGraph v } := by
  intro address name
  have hnamed : ∀ i : v.Index, ({ table := declaredTable v } : ObjectGraph v).isNamed i = true ↔
      (v.object i).isLazy = false := by
    intro i
    rw [isNamed_iff, or_iff_left List.not_mem_nil]
  have hname : ∀ i : v.Index, ({ table := declaredTable v } : ObjectGraph v).name i =
      (v.object i).name := fun i => name_of_not_mem_discovered List.not_mem_nil
  simp only [hnamed, hname]
  -- both sides speak of the list from which the table is made
  rw [← mem_declared]
  change (declaredTable v).get? address = some name ↔ _
  rw [declaredTable, AddressTable.get?_ofList]
  constructor
  · intro hlookup
    split at hlookup
    · cases hlookup
    · exact Literal.mem_of_lookup hlookup
  · intro hmem
    obtain ⟨i, haddress, hdeclared, rfl⟩ := mem_declared.1 hmem
    have hzero : address ≠ 0 := haddress ▸ h.address_ne_zero i
    rw [if_neg hzero]
    -- some object is found under the address, and by its address it is the same object
    obtain ⟨found, hfound⟩ := Option.isSome_iff_exists.1
      (List.lookup_isSome_iff.2 ⟨_, hmem, BEq.rfl⟩)
    obtain ⟨j, hj, -, rfl⟩ := mem_declared.1 (Literal.mem_of_lookup hfound)
    have hij : i = j := h.address_injective i j (haddress.trans hj.symm)
    rw [hfound, hij]

/-! ### Discovered objects -/

/-- The bytes of a pointer name the address of its object, by which it becomes known. -/
theorem table_discover {g : ObjectGraph v} {target : v.Index} {stored : Bytes}
    (hword : stored.word = (v.object target).address) (hzero : (v.object target).address ≠ 0)
    (address : Nat) :
    (g.discover target stored).table.get? address =
      (g.table.get? address).or
        (if address = (v.object target).address then
          some (discoveredName (g.discovered.length + 1)) else none) := by
  -- the scan reads all the bytes and keeps the low bits, which gives the same word
  have hread : Bytes.value stored % Word.limit = (v.object target).address := by
    rw [← Bytes.word_eq_value_mod, hword]
  unfold discover
  simp only [hread]
  rw [AddressTable.get?_insert, AddressTable.get?_insert, Option.or_assoc]
  congr 1
  by_cases haddress : address = (v.object target).address <;> simp [haddress, hzero]

theorem TableExact.discover (h : v.Placed) {g : ObjectGraph v} (hg : g.TableExact)
    {target : v.Index} {stored : Bytes} (hnew : g.isNamed target = false)
    (hword : stored.word = (v.object target).address) : (g.discover target stored).TableExact := by
  intro address name
  rw [table_discover hword (h.address_ne_zero target)]
  have hfresh : target ∉ g.discovered := (isNamed_eq_false_iff.1 hnew).2
  have hnamed : ∀ i, (g.discover target stored).isNamed i = true ↔
      g.isNamed i = true ∨ i = target := by
    intro i
    rw [isNamed_iff, isNamed_iff, discovered_discover, List.mem_append, List.mem_singleton,
      or_assoc]
  by_cases haddress : address = (v.object target).address
  · -- the address is that of the new object, and the table did not know it
    have hunknown : g.table.get? address = none := by
      cases hknown : g.table.get? address with
      | none => rfl
      | some other =>
        obtain ⟨i, hi, hi', -⟩ := (hg address other).1 hknown
        have hit : i = target := h.address_injective i target (hi.trans haddress)
        rw [hit, hnew] at hi'
        cases hi'
    rw [hunknown, Option.none_or, if_pos haddress, Option.some.injEq]
    -- the new object is the only one with this address
    constructor
    · intro hname
      refine ⟨target, haddress.symm, (hnamed target).2 (Or.inr rfl), ?_⟩
      rw [name_discover hfresh, if_pos rfl, hname]
    · rintro ⟨i, hi, -, hname⟩
      have hit : i = target := h.address_injective i target (hi.trans haddress)
      rw [name_discover hfresh, if_pos hit] at hname
      exact hname
  · -- at any other address nothing changes
    rw [if_neg haddress, Option.or_none, hg address name]
    have hother : ∀ i, (v.object i).address = address → i ≠ target := by
      rintro i hi rfl
      exact haddress hi.symm
    constructor
    · rintro ⟨i, hi, hi', hname⟩
      refine ⟨i, hi, (hnamed i).2 (Or.inl hi'), ?_⟩
      rw [name_discover hfresh, if_neg (hother i hi), hname]
    · rintro ⟨i, hi, hi', hname⟩
      rw [name_discover hfresh, if_neg (hother i hi)] at hname
      exact ⟨i, hi, ((hnamed i).1 hi').resolve_right (hother i hi), hname⟩

/-! ### The scan of a consistent vector -/

/-- A pointer of a consistent vector is taken in, and the table stays exact. -/
theorem exists_extend_of_consistent (h : v.Consistent pointerSize) {g : ObjectGraph v}
    (hg : g.TableExact) {held : v.Index × Slot} (hheld : held ∈ v.slots) :
    ∃ g', extend pointerSize g held = .ok g' ∧ g'.TableExact := by
  obtain ⟨owner, slot⟩ := held
  obtain ⟨target, htarget, hstored⟩ := h.stored owner slot (mem_slots.1 hheld)
  obtain ⟨run, hrun, hword⟩ := Option.map_eq_some_iff.1 hstored
  have hindex : slot.index < v.objects.length := htarget ▸ target.isLt
  have hself : (⟨slot.index, hindex⟩ : v.Index) = target := Fin.ext htarget.symm
  unfold extend
  simp only [hindex, dif_pos, hself, isNamed_addEdge, hrun]
  -- only a pointer to an object without a name changes the table
  cases hnamed : g.isNamed target with
  | true => exact ⟨_, rfl, hg⟩
  | false => exact ⟨_, rfl, TableExact.discover h.toPlaced hg hnamed hword⟩

/-- **The scan succeeds** on a consistent vector, and leaves an exact table. -/
theorem exists_build_of_consistent (h : v.Consistent pointerSize) :
    ∃ g, build v pointerSize = .ok g ∧ g.TableExact := by
  -- by induction on the pointers that are left, from any exact graph
  have run : ∀ held : List (v.Index × Slot), held ⊆ v.slots → ∀ g : ObjectGraph v, g.TableExact →
      ∃ g', held.foldlM (extend pointerSize) g = .ok g' ∧ g'.TableExact := by
    intro held
    induction held with
    | nil => exact fun _ g hg => ⟨g, rfl, hg⟩
    | cons s rest ih =>
      intro hheld g hg
      obtain ⟨hs, hrest⟩ := List.cons_subset.1 hheld
      obtain ⟨g₁, hstep, hg₁⟩ := exists_extend_of_consistent h hg hs
      obtain ⟨g', hfold, hg'⟩ := ih hrest g₁ hg₁
      refine ⟨g', ?_, hg'⟩
      rw [List.foldlM_cons, hstep]
      exact hfold
  exact run v.slots (List.Subset.refl _) _ (tableExact_start h.toPlaced)

/-- The table of a consistent vector resolves every edge. -/
theorem get?_of_mem_edges {g : ObjectGraph v} (h : v.Consistent pointerSize)
    (hg : build v pointerSize = .ok g) {e : Edge v} (he : e ∈ g.edges) :
    ∃ run, (v.object e.owner).bytes.slice? e.offset pointerSize = some run ∧
      run.word = (v.object e.target).address ∧ g.table.get? run.word = some (g.name e.target) := by
  obtain ⟨slot, hslot, hoffset, hindex⟩ := (mem_edges_build hg e).1 he
  obtain ⟨target, htarget, hstored⟩ := h.stored e.owner slot hslot
  obtain ⟨run, hrun, hword⟩ := Option.map_eq_some_iff.1 hstored
  have hself : target = e.target := Fin.ext (htarget.trans hindex)
  -- the graph is the one that the scan leaves, so its table is exact
  obtain ⟨g', hg', hexact⟩ := exists_build_of_consistent h
  obtain rfl : g' = g := Except.ok.inj (hg'.symm.trans hg)
  rw [hoffset] at hrun
  rw [hself] at hword
  refine ⟨run, hrun, hword, (hexact _ _).2 ⟨e.target, hword.symm, ?_, rfl⟩⟩
  exact (wellNamed_build hg).named e he

/-- An object has a name to refer to exactly if it is declared or an edge leads to it. -/
theorem isNamed_iff_entered {g : ObjectGraph v} (hg : WellNamed g) {i : v.Index} :
    g.isNamed i = true ↔ (v.object i).isLazy = false ∨ ∃ e ∈ g.edges, e.target = i := by
  constructor
  · intro hnamed
    exact (isNamed_iff.1 hnamed).imp id (hg.entered i)
  · rintro (hdeclared | ⟨e, he, rfl⟩)
    · exact isNamed_iff.2 (Or.inl hdeclared)
    · exact hg.named e he

/-- **Aliases resolve.** The graph of a consistent vector is built, and its edges are the pointers
that the objects hold. At each of its edges the decoder reads an address that the table knows under
the name of the edge's target, and so notes a reference to it. The table knows exactly the addresses
of declared objects and of the targets of edges, each under the name that the graph has for the
object; the null address is none of them. -/
theorem aliases_resolve (h : v.Consistent pointerSize) :
    ∃ g, build v pointerSize = .ok g ∧
      (∀ e, e ∈ g.edges ↔ ∃ slot ∈ (v.object e.owner).slots,
        slot.offset = e.offset ∧ slot.index = e.target.val) ∧
      (∀ e ∈ g.edges, ∃ run, (v.object e.owner).bytes.slice? e.offset pointerSize = some run ∧
        g.table.get? run.word = some (g.name e.target) ∧
        ∀ (d : Decoder) (t : CType) (access : String),
          d.registry.pointerSize = pointerSize → d.table = g.table →
            d.pointerView (v.object e.owner).bytes t e.offset access =
              ⟨.ok (.primitive Literal.null),
                [⟨access, g.name e.target, Literal.referenceCast t.name t.dimension⟩], []⟩) ∧
      (∀ address name, g.table.get? address = some name ↔
        ∃ i, (v.object i).address = address ∧
          ((v.object i).isLazy = false ∨ ∃ e ∈ g.edges, e.target = i) ∧ g.name i = name) ∧
      g.table.get? 0 = none := by
  obtain ⟨g, hg, hexact⟩ := exists_build_of_consistent h
  have hnames := wellNamed_build hg
  refine ⟨g, hg, mem_edges_build hg, fun e he => ?_, fun address name => ?_, rfl⟩
  · -- the decoder reads the same bytes as the scan
    obtain ⟨run, hrun, -, hknown⟩ := get?_of_mem_edges h hg he
    refine ⟨run, hrun, hknown, fun d t access hsize htable => ?_⟩
    have hread : readBytes (v.object e.owner).bytes e.offset d.registry.pointerSize = pure run := by
      rw [readBytes, hsize, hrun]
    rw [Decoder.pointerView, hread, pure_bind, htable]
    simp only [hknown]
    rfl
  · rw [hexact address name]
    simp only [isNamed_iff_entered hnames]

/-- The scan of the ring takes in the pointer that `head` holds, and the address stored there is
known under the name that the ring's second object is given. The last object has a pointer but none
leads to it, so its address is not known. -/
theorem ring_aliases_resolve :
    ringVector.Consistent 8 ∧
      ∃ g, build ringVector 8 = .ok g ∧
        (⟨(0 : Fin 4), 0, (1 : Fin 4)⟩ : Edge ringVector) ∈ g.edges ∧
        (∀ e ∈ g.edges, ∃ run, (ringVector.object e.owner).bytes.slice? e.offset 8 = some run ∧
          g.table.get? run.word = some (g.name e.target)) ∧
        g.table.get? 0x20 = some (g.name (1 : Fin 4)) ∧
        g.table.get? 0x40 = none := by
  have hconsistent : ringVector.Consistent 8 := by decide
  obtain ⟨g, hg, hmem, hedges, hknown, -⟩ := aliases_resolve hconsistent
  have hhead : (⟨(0 : Fin 4), 0, (1 : Fin 4)⟩ : Edge ringVector) ∈ g.edges :=
    (hmem _).2 ⟨⟨0, 1⟩, by decide, rfl, rfl⟩
  refine ⟨hconsistent, g, hg, hhead, fun e he => ?_, ?_, ?_⟩
  · obtain ⟨run, hrun, hname, -⟩ := hedges e he
    exact ⟨run, hrun, hname⟩
  · obtain ⟨run, hrun, hname, -⟩ := hedges _ hhead
    obtain rfl : [0x20, 0, 0, 0, 0, 0, 0, 0] = run := Option.some.inj hrun
    exact hname
  · -- nothing leads to the object at that address
    rw [Option.eq_none_iff_forall_ne_some]
    intro name hname
    obtain ⟨i, hi, hentered, -⟩ := (hknown 0x40 name).1 hname
    obtain rfl : ring = g := Except.ok.inj (build_ring.symm.trans hg)
    revert i
    decide

end ObjectGraph

end SymVec

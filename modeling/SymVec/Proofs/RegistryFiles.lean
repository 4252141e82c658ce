import Mathlib.Data.List.Nodup
import SymVec.Registry.FieldOwning

/-!
# Registries and their files

A registry is written to a file as the list of its records and the list of its enumerations, each in
the order of the names, and a registry is read from a file by adding one entry after another. Which
entries a registry holds depends on the last one added under each name only. So its file has one
form, however the registry came about, and reading the file gives the registry back.

A store need not keep its entries in order for this. One that keeps them in maps without an order,
each under a copy of its own name, hands them out in any order when it is written. Since no two of
them have the same name, putting them in the order of their names leaves one list, and this is the
list of the catalog.

* `Catalog.Mirrors` — a map without an order that holds what a catalog holds;
* `Catalog.Mirrors.sortedByName_eq` — what it hands out, in the order of the names;
* `Registry.registerAll_eq` — records and enumerations after a sequence of registrations;
* `Registry.file_eq_iff_answersAlike` — registries with the same file;
* `Registry.HashedStore.registerAll_mirrors` — the same registrations in maps without an order;
* `Registry.storage_canonical` — registrations, files and what is read from them.
-/

namespace SymVec

/-! ### Entries by name -/

namespace Catalog

variable {α : Type} {key : α → String}

/-- The last entry of a list that has the name. -/
def last? (key : α → String) (xs : List α) (name : String) : Option α :=
  (xs.filter fun x => key x = name).getLast?

/-- The entries of a list in the order of their names. -/
def sortedByName (key : α → String) (xs : List α) : List α :=
  xs.mergeSort fun a b => key a ≤ key b

/-- The last entry of a list that has the name, or else the one of the catalog. -/
def lastOr (c : Catalog key) (xs : List α) (name : String) : Option α :=
  (last? key xs name).or (c.find? name)

/-- A lookup answers the last entry added under the name, or else what it answered before. -/
theorem find?_insertAll (xs : List α) (c : Catalog key) (name : String) :
    (xs.foldl insert c).find? name = c.lastOr xs name := by
  rw [find?_foldl_insert, lastOr, last?, List.getLast?_filter]

/-- Of the entries added under a name, the last one stays. -/
theorem mem_insertAll_iff {xs : List α} {c : Catalog key} {x : α} :
    x ∈ (xs.foldl insert c).toList ↔ c.lastOr xs (key x) = some x := by
  rw [mem_iff_find?, find?_insertAll]

/-- The catalog of a list has the last entry of each name. -/
theorem mem_ofList_iff {xs : List α} {x : α} :
    x ∈ (ofList xs : Catalog key).toList ↔ last? key xs (key x) = some x := by
  rw [ofList, mem_insertAll_iff, lastOr, find?_empty, Option.or_none]

/-- Entries of a catalog that have the same name are the same. -/
theorem eq_of_mem_of_key_eq {c : Catalog key} {x y : α} (hx : x ∈ c.toList) (hy : y ∈ c.toList)
    (h : key x = key y) : x = y := by
  have hfind := mem_iff_find?.1 hx
  rw [h, mem_iff_find?.1 hy] at hfind
  exact (Option.some.inj hfind).symm

theorem nodup_toList (c : Catalog key) : c.toList.Nodup := by
  refine List.Pairwise.imp (fun {x y} hlt heq => ?_) c.increasing
  exact String.lt_irrefl _ (heq ▸ hlt)

/-- **Mirror** of a catalog: a map without an order in which the same is found under each name. -/
def Mirrors (c : Catalog key) (m : Std.HashMap String α) : Prop :=
  ∀ name, m[name]? = c.find? name

variable {c : Catalog key} {m : Std.HashMap String α}

theorem mirrors_empty : Mirrors (empty : Catalog key) ∅ := fun _ => Std.HashMap.getElem?_empty

/-- An entry is added to the map under a copy of its name. -/
theorem Mirrors.insert (h : Mirrors c m) (x : α) :
    Mirrors (c.insert x) (m.insert (key x) x) := by
  intro name
  rw [Std.HashMap.getElem?_insert, find?_insert, h name]
  simp only [beq_iff_eq]

/-- The map holds each entry of the catalog under its name, and nothing else. -/
theorem Mirrors.perm (h : Mirrors c m) :
    m.toList.Perm (c.toList.map fun x => (key x, x)) := by
  have hmap : m.toList.Nodup :=
    Std.HashMap.distinct_keys_toList.imp fun hne heq => by simp [heq] at hne
  have hcatalog : (c.toList.map fun x => (key x, x)).Nodup :=
    c.nodup_toList.map fun x y heq => (Prod.mk.inj heq).2
  -- neither repeats an entry, so it is enough that they have the same ones
  refine (List.perm_ext_iff_of_nodup hmap hcatalog).2 ?_
  rintro ⟨name, x⟩
  rw [Std.HashMap.mem_toList_iff_getElem?_eq_some, h name, List.mem_map]
  constructor
  · -- the entry found under a name has that name
    intro hfind
    obtain rfl : key x = name := key_of_find? hfind
    exact ⟨x, mem_iff_find?.2 hfind, rfl⟩
  · rintro ⟨y, hy, heq⟩
    obtain ⟨rfl, rfl⟩ := Prod.mk.inj heq
    exact mem_iff_find?.1 hy

theorem Mirrors.size_eq (h : Mirrors c m) : m.size = c.size := by
  rw [← Std.HashMap.length_toList, h.perm.length_eq, List.length_map, size]

theorem sortedByName_perm (xs : List α) : (sortedByName key xs).Perm xs :=
  List.mergeSort_perm xs _

/-- Sorted entries are in the order of their names. -/
theorem pairwise_sortedByName (xs : List α) :
    (sortedByName key xs).Pairwise fun a b => key a ≤ key b := by
  -- the order of strings is transitive and total, which is what sorting asks for
  have hsorted := @List.pairwise_mergeSort α (fun a b => decide (key a ≤ key b))
    (fun a b c hab hbc => by simpa using String.le_trans (by simpa using hab) (by simpa using hbc))
    (fun a b => by simpa using String.le_total (key a) (key b)) xs
  exact hsorted.imp fun hle => of_decide_eq_true hle

/-- **Order of the names.** Whatever the order in which the map hands out its entries, in the order
of their names they are those of the catalog. -/
theorem Mirrors.sortedByName_eq (h : Mirrors c m) {order : List α}
    (horder : order.Perm (m.toList.map (·.2))) : sortedByName key order = c.toList := by
  have hentries : (m.toList.map (·.2)).Perm c.toList := by
    have hperm := h.perm.map (·.2)
    rwa [List.map_map, List.map_id''] at hperm
    exact fun _ => rfl
  have hperm : (sortedByName key order).Perm c.toList :=
    (sortedByName_perm order).trans (horder.trans hentries)
  -- two lists of the same entries in the order of their names, of which no two are the same
  refine List.Perm.eq_of_pairwise (fun x y hx hy hxy hyx => ?_) (pairwise_sortedByName order)
    (c.increasing.imp fun hlt => String.not_lt.1 (String.lt_asymm hlt)) hperm
  exact eq_of_mem_of_key_eq (hperm.mem_iff.1 hx) hy (String.le_antisymm hxy hyx)

end Catalog

namespace Registry

open Catalog (last? sortedByName)

/-! ### Registrations -/

/-- **Registration** of one layout. -/
inductive Registration where
  | record (record : Record)
  | enumeration (e : Enumeration)

namespace Registration

/-- The record, if it is one that is registered. -/
def record? : Registration → Option Record
  | record r => some r
  | enumeration _ => none

/-- The enumeration, if it is one that is registered. -/
def enumeration? : Registration → Option Enumeration
  | record _ => none
  | enumeration e => some e

end Registration

/-- The registry with one more layout. -/
def register (r : Registry) : Registration → Registry
  | .record record => r.addRecord record
  | .enumeration e => r.addEnumeration e

/-- The registry after a sequence of registrations. -/
def registerAll (r : Registry) (calls : List Registration) : Registry := calls.foldl register r

/-- The records that are registered, in the order of the calls. -/
def recordsOf (calls : List Registration) : List Record := calls.filterMap Registration.record?

/-- The enumerations that are registered, in the order of the calls. -/
def enumerationsOf (calls : List Registration) : List Enumeration :=
  calls.filterMap Registration.enumeration?

/-- Registrations of records and of enumerations do not concern each other, nor the pointer size. -/
theorem registerAll_eq (r : Registry) (calls : List Registration) :
    r.registerAll calls =
      ⟨(recordsOf calls).foldl Catalog.insert r.records,
        (enumerationsOf calls).foldl Catalog.insert r.enumerations, r.pointerSize⟩ := by
  induction calls generalizing r with
  | nil => rfl
  | cons call calls ih =>
    -- a call adds to one of the catalogs and leaves the other as it is
    cases call <;> exact ih _

section Lookups

variable {α : Type} {key : α → String}

/-- A name finds what was added last under it, or else what was added last under the name without
its tag. -/
theorem lookup_insertAll (xs : List α) (c : Catalog key) (name : String) :
    lookup (xs.foldl Catalog.insert c) name =
      (c.lastOr xs name).or (c.lastOr xs (untagged name)) := by
  rw [lookup, Catalog.find?_insertAll, Catalog.find?_insertAll]

theorem lookup_of_last? {xs : List α} {name : String} {x : α} (c : Catalog key)
    (h : last? key xs name = some x) : lookup (xs.foldl Catalog.insert c) name = some x := by
  rw [lookup_insertAll, Catalog.lastOr, h, Option.some_or, Option.some_or]

/-- What is stored under a name shows in the answers: an entry that was found without the tag has
another name. -/
theorem find?_eq_filter_lookup (c : Catalog key) (name : String) :
    c.find? name = (lookup c name).filter fun x => key x = name := by
  unfold lookup
  -- the name is found as it is spelled, or without its tag, or not at all
  cases hfind : c.find? name with
  | some x => simp [Option.filter, Catalog.key_of_find? hfind]
  | none =>
    cases huntagged : c.find? (untagged name) with
    | none => rfl
    | some x =>
      -- with this name it would have been found at once
      have hother : key x ≠ name := by
        rintro rfl
        rw [Catalog.key_of_find? huntagged] at hfind
        rw [hfind] at huntagged
        cases huntagged
      simp [Option.filter, hother]

/-- Catalogs in which each name finds the same, in either spelling, are the same. -/
theorem eq_of_lookup_eq {c d : Catalog key} (h : ∀ name, lookup c name = lookup d name) : c = d :=
  Catalog.ext_find? fun name => by
    rw [find?_eq_filter_lookup, find?_eq_filter_lookup, h name]

end Lookups

/-! ### Files -/

/-- **File** of a registry: its entries in a row, and the size of a pointer. -/
structure File where
  records : List Record
  enumerations : List Enumeration
  pointerSize : Nat

/-- The file to which a registry is written. -/
def file (r : Registry) : File := ⟨r.records.toList, r.enumerations.toList, r.pointerSize⟩

/-- The registry that is read from a file. -/
def File.registry (f : File) : Registry := .ofLists f.records f.enumerations f.pointerSize

/-- The entries of a file in the order in which they are read. -/
def File.registrations (f : File) : List Registration :=
  f.records.map .record ++ f.enumerations.map .enumeration

/-- The registry without layouts. -/
def bare (pointerSize : Nat) : Registry := { pointerSize }

/-- A registry is read from its file by registering one entry after another. -/
theorem File.registry_eq_registerAll (f : File) :
    f.registry = (bare f.pointerSize).registerAll f.registrations := by
  have hrecords : recordsOf f.registrations = f.records := by
    simp [recordsOf, registrations, Function.comp_def, Registration.record?]
  have henumerations : enumerationsOf f.registrations = f.enumerations := by
    simp [enumerationsOf, registrations, Function.comp_def, Registration.enumeration?]
  rw [registerAll_eq, hrecords, henumerations]
  rfl

/-- Reading a file gives the registry back that was written. -/
theorem registry_file (r : Registry) : r.file.registry = r := ofLists_toLists r

/-! ### Stores without an order -/

/-- **Hashed store** of layouts: each entry lies under a copy of its name in a map without an
order. -/
structure HashedStore where
  records : Std.HashMap String Record
  enumerations : Std.HashMap String Enumeration
  pointerSize : Nat

namespace HashedStore

/-- The store without layouts. -/
def bare (pointerSize : Nat) : HashedStore := ⟨∅, ∅, pointerSize⟩

/-- The store with one more layout, in the place of one of the same name. -/
def register (h : HashedStore) : Registration → HashedStore
  | .record record => { h with records := h.records.insert record.name record }
  | .enumeration e => { h with enumerations := h.enumerations.insert e.name e }

/-- The store after a sequence of registrations. -/
def registerAll (h : HashedStore) (calls : List Registration) : HashedStore :=
  calls.foldl register h

/-- The record under the name as it is spelled, or else under the name without its tag. -/
def record? (h : HashedStore) (name : String) : Option Record :=
  h.records[name]?.or h.records[untagged name]?

/-- The enumeration under the name, found in the same way. -/
def enumeration? (h : HashedStore) (name : String) : Option Enumeration :=
  h.enumerations[name]?.or h.enumerations[untagged name]?

/-- The number of records bounds how deep they can nest. -/
def nestingLimit (h : HashedStore) : Nat := h.records.size + 1

/-- **Files of a store.** The maps hand out their entries in any order, and the file has them in the
order of their names. -/
structure Writes (h : HashedStore) (f : File) : Prop where
  records : ∃ order, order.Perm (h.records.toList.map (·.2)) ∧
    f.records = sortedByName Record.name order
  enumerations : ∃ order, order.Perm (h.enumerations.toList.map (·.2)) ∧
    f.enumerations = sortedByName Enumeration.name order
  pointerSize : f.pointerSize = h.pointerSize

/-- **Mirror** of a registry: a store with the same entries. -/
structure Mirrors (h : HashedStore) (r : Registry) : Prop where
  records : r.records.Mirrors h.records
  enumerations : r.enumerations.Mirrors h.enumerations
  pointerSize : h.pointerSize = r.pointerSize

variable {h : HashedStore} {r : Registry}

/-- Stores and registries without layouts have the same entries, none. -/
theorem mirrors_bare (pointerSize : Nat) : (bare pointerSize).Mirrors (.bare pointerSize) :=
  ⟨Catalog.mirrors_empty, Catalog.mirrors_empty, rfl⟩

/-- One more registration keeps a store a mirror. -/
theorem register_mirrors (hr : h.Mirrors r) (call : Registration) :
    (h.register call).Mirrors (r.register call) := by
  -- each call concerns one of the two maps
  cases call with
  | record record => exact ⟨hr.records.insert record, hr.enumerations, hr.pointerSize⟩
  | enumeration e => exact ⟨hr.records, hr.enumerations.insert e, hr.pointerSize⟩

/-- **The same registrations** keep a store a mirror. -/
theorem registerAll_mirrors (hr : h.Mirrors r) (calls : List Registration) :
    (h.registerAll calls).Mirrors (r.registerAll calls) := by
  induction calls generalizing h r with
  | nil => exact hr
  | cons call calls ih => exact ih (register_mirrors hr call)

/-- **Same answers.** A store answers what a registry answers, keeps each entry under its own name,
and is written to the same file, whatever the order in which its maps hand out their entries. -/
structure AnswersAs (h : HashedStore) (r : Registry) : Prop where
  record? (name : String) : h.record? name = r.record? name
  enumeration? (name : String) : h.enumeration? name = r.enumeration? name
  nestingLimit : h.nestingLimit = r.nestingLimit
  pointerSize : h.pointerSize = r.pointerSize
  recordName (name : String) (record : Record) : h.records[name]? = some record →
    record.name = name
  enumerationName (name : String) (e : Enumeration) : h.enumerations[name]? = some e →
    e.name = name
  writes_iff (f : File) : h.Writes f ↔ f = r.file

/-- A mirror can be written to the file of the registry, and to no other. -/
theorem Mirrors.writes_iff (hr : h.Mirrors r) (f : File) : h.Writes f ↔ f = r.file := by
  constructor
  · rintro ⟨⟨records, hrecords, hsorted⟩, ⟨enumerations, henumerations, hsorted'⟩, hsize⟩
    cases f
    simp only at hsorted hsorted' hsize
    rw [hsorted, hsorted', hsize, hr.records.sortedByName_eq hrecords,
      hr.enumerations.sortedByName_eq henumerations, hr.pointerSize]
    rfl
  · -- each map has some order, and any serves
    rintro rfl
    exact ⟨⟨_, .refl _, (hr.records.sortedByName_eq (.refl _)).symm⟩,
      ⟨_, .refl _, (hr.enumerations.sortedByName_eq (.refl _)).symm⟩, hr.pointerSize.symm⟩

/-- A mirror answers what the registry answers. -/
theorem Mirrors.answersAs (hr : h.Mirrors r) : h.AnswersAs r where
  record? name := by
    rw [HashedStore.record?, hr.records name, hr.records (untagged name)]
    rfl
  enumeration? name := by
    rw [HashedStore.enumeration?, hr.enumerations name, hr.enumerations (untagged name)]
    rfl
  nestingLimit := congrArg (· + 1) hr.records.size_eq
  pointerSize := hr.pointerSize
  recordName name record hfound := Catalog.key_of_find? ((hr.records name).symm.trans hfound)
  enumerationName name e hfound := Catalog.key_of_find? ((hr.enumerations name).symm.trans hfound)
  writes_iff := hr.writes_iff

/-- The store that is read from a file. -/
def read (f : File) : HashedStore := (bare f.pointerSize).registerAll f.registrations

/-- A store that is read from a file mirrors the registry that is read from it. -/
theorem read_mirrors (f : File) : (read f).Mirrors f.registry := by
  rw [File.registry_eq_registerAll]
  exact registerAll_mirrors (mirrors_bare f.pointerSize) f.registrations

end HashedStore

/-! ### Canonical storage -/

/-- **Same answers** of two registries. -/
structure AnswersAlike (r s : Registry) : Prop where
  record? (name : String) : r.record? name = s.record? name
  enumeration? (name : String) : r.enumeration? name = s.enumeration? name
  pointerSize : r.pointerSize = s.pointerSize
  nestingLimit : r.nestingLimit = s.nestingLimit
  kindOf (t : CType) : r.kindOf t = s.kindOf t
  sizeOf (t : CType) : r.sizeOf t = s.sizeOf t
  fieldOwning (t : CType) (offset : Nat) : r.fieldOwning t offset = s.fieldOwning t offset

theorem AnswersAlike.refl (r : Registry) : r.AnswersAlike r :=
  ⟨fun _ => rfl, fun _ => rfl, rfl, rfl, fun _ => rfl, fun _ => rfl, fun _ _ => rfl⟩

/-- **Canonical files.** Registries have the same file exactly when they give the same answers. -/
theorem file_eq_iff_answersAlike (r s : Registry) : r.file = s.file ↔ r.AnswersAlike s := by
  constructor
  · intro hfile
    have heq : r = s := by rw [← registry_file r, hfile, registry_file]
    rw [heq]
    exact .refl s
  · intro h
    -- kinds, sizes and owners are worked out from the other answers
    have hrecords : r.records = s.records := eq_of_lookup_eq h.record?
    have henumerations : r.enumerations = s.enumerations := eq_of_lookup_eq h.enumeration?
    rw [file, file, hrecords, henumerations, h.pointerSize]

/-- **Increasing file.** The names strictly increase, so that no two entries have the same one. -/
structure File.Increasing (f : File) : Prop where
  records : f.records.Pairwise fun a b => a.name < b.name
  enumerations : f.enumerations.Pairwise fun a b => a.name < b.name

/-- **What is stored** in a registry `s` after a sequence of registrations in a registry `r`. -/
structure Stores (r : Registry) (calls : List Registration) (s : Registry) : Prop where
  /-- The name as it is spelled finds the last record that was registered under it. -/
  record_of_last (name : String) (record : Record) :
    last? Record.name (recordsOf calls) name = some record → s.record? name = some record
  enumeration_of_last (name : String) (e : Enumeration) :
    last? Enumeration.name (enumerationsOf calls) name = some e → s.enumeration? name = some e
  /-- Where nothing is stored under the name, it finds what is stored under the name without its
  tag. -/
  record? (name : String) : s.record? name =
    (r.records.lastOr (recordsOf calls) name).or
      (r.records.lastOr (recordsOf calls) (untagged name))
  enumeration? (name : String) : s.enumeration? name =
    (r.enumerations.lastOr (enumerationsOf calls) name).or
      (r.enumerations.lastOr (enumerationsOf calls) (untagged name))
  increasing : s.file.Increasing
  /-- The file lists the entries that are stored, and no others. -/
  mem_records (record : Record) : record ∈ s.file.records ↔
    r.records.lastOr (recordsOf calls) record.name = some record
  mem_enumerations (e : Enumeration) : e ∈ s.file.enumerations ↔
    r.enumerations.lastOr (enumerationsOf calls) e.name = some e
  pointerSize : s.file.pointerSize = r.pointerSize
  rebuilt : s.file.registry.AnswersAlike s
  /-- Another registry has this file exactly if it gives the same answers. -/
  file_eq_iff (s' : Registry) : s.file = s'.file ↔ s.AnswersAlike s'
  /-- Nothing of this depends on the order in which the entries are kept. -/
  mirrored (h : HashedStore) : h.Mirrors r → (h.registerAll calls).AnswersAs s
  rebuilt_store : (HashedStore.read s.file).AnswersAs s

/-- **Normal form** `g` of a file `f`. -/
structure File.IsNormalOf (g f : File) : Prop where
  increasing : g.Increasing
  /-- Of the entries with the same name, the last one is kept. -/
  mem_records (record : Record) : record ∈ g.records ↔
    last? Record.name f.records record.name = some record
  mem_enumerations (e : Enumeration) : e ∈ g.enumerations ↔
    last? Enumeration.name f.enumerations e.name = some e
  pointerSize : g.pointerSize = f.pointerSize
  idempotent : g.registry.file = g
  /-- A store that is read from the file and written again gives the normal form. -/
  writes_iff (g' : File) : (HashedStore.read f).Writes g' ↔ g' = g

theorem increasing_file (r : Registry) : r.file.Increasing :=
  ⟨r.records.increasing, r.enumerations.increasing⟩

theorem stores_registerAll (r : Registry) (calls : List Registration) :
    r.Stores calls (r.registerAll calls) where
  -- all of it is read off the catalog into which the records, or the enumerations, are put one
  -- after another
  record_of_last name record hlast := by
    rw [registerAll_eq]
    exact lookup_of_last? r.records hlast
  enumeration_of_last name e hlast := by
    rw [registerAll_eq]
    exact lookup_of_last? r.enumerations hlast
  record? name := by
    rw [registerAll_eq]
    exact lookup_insertAll (recordsOf calls) r.records name
  enumeration? name := by
    rw [registerAll_eq]
    exact lookup_insertAll (enumerationsOf calls) r.enumerations name
  increasing := increasing_file _
  mem_records record := by
    rw [registerAll_eq]
    exact Catalog.mem_insertAll_iff
  mem_enumerations e := by
    rw [registerAll_eq]
    exact Catalog.mem_insertAll_iff
  pointerSize := by
    rw [registerAll_eq]
    rfl
  rebuilt := by
    rw [registry_file]
    exact .refl _
  file_eq_iff := file_eq_iff_answersAlike _
  mirrored h hr := (HashedStore.registerAll_mirrors hr calls).answersAs
  rebuilt_store := by
    have hread := HashedStore.read_mirrors (r.registerAll calls).file
    -- the registry that is read from the file is the one that was written
    rw [registry_file] at hread
    exact hread.answersAs

theorem isNormalOf_file (f : File) : f.registry.file.IsNormalOf f where
  increasing := increasing_file _
  mem_records _ := Catalog.mem_ofList_iff
  mem_enumerations _ := Catalog.mem_ofList_iff
  pointerSize := rfl
  idempotent := by rw [registry_file]
  writes_iff := (HashedStore.read_mirrors f).writes_iff

/-- **Storage is canonical.** After a sequence of registrations a name finds the last entry that was
registered under it, the file of the registry lists what is stored in the order of the names, and
reading the file gives a registry with the same answers, whether the entries are kept in an order or
not. Any file that is read and written again is in normal form, with the last of the entries of each
name. -/
theorem storage_canonical (r : Registry) (calls : List Registration) (f : File) :
    r.Stores calls (r.registerAll calls) ∧ f.registry.file.IsNormalOf f :=
  ⟨stores_registerAll r calls, isNormalOf_file f⟩

/-- A structure of that size without members. -/
def blank (name : String) (size : Nat) : Record := { name, kind := .struct, size }

/-- A node that is registered twice, the second time larger, and a cell in between. -/
def nodeCalls : List Registration :=
  [.record (blank "node" 16), .record (blank "cell" 8), .enumeration { name := "color" },
    .record (blank "node" 24)]

/-- A file with the same entries in the same order. -/
def nodeFile : File := ⟨[blank "node" 16, blank "cell" 8, blank "node" 24], [], 8⟩

/-- Of the nodes the larger one is found, with and without the tag, and it is kept in the file. -/
theorem nodes_storage_canonical :
    ((bare 8).registerAll nodeCalls).record? "node" = some (blank "node" 24) ∧
    ((bare 8).registerAll nodeCalls).record? "struct node" = some (blank "node" 24) ∧
    ((HashedStore.bare 8).registerAll nodeCalls).Writes ((bare 8).registerAll nodeCalls).file ∧
    blank "node" 24 ∈ nodeFile.registry.file.records ∧
    blank "node" 16 ∉ nodeFile.registry.file.records := by
  obtain ⟨hstores, hnormal⟩ := storage_canonical (bare 8) nodeCalls nodeFile
  refine ⟨hstores.record_of_last "node" _ (by decide), ?_, ?_, ?_, ?_⟩
  · rw [hstores.record?]
    decide
  · exact ((hstores.mirrored _ (HashedStore.mirrors_bare 8)).writes_iff _).2 rfl
  · exact (hnormal.mem_records _).2 (by decide)
  · exact fun hmem => absurd ((hnormal.mem_records _).1 hmem) (by decide)

end Registry

end SymVec

import SymVec.Proofs.Compositionality

/-!
# Shapes of arrays of arrays

An array of arrays is read as one row of base elements, and the row is then put into arrays, the
innermost length first. As long as no inner length is zero, this keeps every element at its place in
the row and gives the arrays the lengths of the type, whether the buffer holds more than the type
says, less, or a part of a group.

Grouping begins with the innermost arrays, and a shape is told from the outside. So the lengths are
listed outermost first here, and one more outer length means one more grouping at the end
(`Decoder.group_reverse_cons`); the lemmas on levels and on regular arrays are inductions on that.

* `filled_chunks` — groups are not empty, and all but the last are full;
* `Decoder.flatten_group_reverse` — opening the outer arrays of a grouped row leaves the inner ones;
* `Decoder.grouped_group` — the shape of any grouped row;
* `Decoder.regular_group` — a row of as many elements as the lengths make becomes a regular array;
* `Decoder.element_of_arrayElements` — each element of a row is read at its own place;
* `Decoder.nested_arrays_shaped` — a decoded array of arrays.
-/

namespace SymVec

/-! ### Loops -/

/-- The results of a counted loop are those of its rounds, in order. -/
theorem Traced.outcome_of_eachFrom {α : Type} {round : Nat → Traced α} {first count : Nat}
    {results : List α} (h : (eachFrom round first count).outcome = .ok results) {i : Nat} {a : α}
    (hi : results[i]? = some a) : (round (first + i)).outcome = .ok a := by
  induction count generalizing first results i with
  | zero =>
    cases h
    cases hi
  | succ count ih =>
    obtain ⟨head, hhead, h⟩ := outcome_bind_eq_ok_iff.1 h
    obtain ⟨rest, hrest, h⟩ := outcome_bind_eq_ok_iff.1 h
    cases h
    -- the first result is that of the first round, and the others are those of the rest
    cases i with
    | zero =>
      cases hi
      exact hhead
    | succ i =>
      have hround := ih hrest hi
      rwa [Nat.add_assoc, Nat.add_comm 1 i] at hround

/-! ### Groups -/

/-- **Filled groups.** None is empty, none is too long, and only the last may be short. -/
structure Filled {α : Type} (size : Nat) (groups : List (List α)) : Prop where
  /-- A group is only begun for an element. -/
  ne_nil : ∀ run ∈ groups, run ≠ []
  length_le : ∀ run ∈ groups, run.length ≤ size
  /-- A group is only begun when the ones before it are full. -/
  length_eq : ∀ run ∈ groups.dropLast, run.length = size

section Groups

variable {α : Type} {size : Nat}

/-- A row that is not empty starts with a group of its own beginning. -/
theorem chunks_of_ne_nil (hsize : 0 < size) {xs : List α} (hxs : xs ≠ []) :
    chunks size xs = xs.take size :: chunks size (xs.drop size) := by
  rw [chunks, dif_neg (not_or.2 ⟨Nat.ne_of_gt hsize, hxs⟩)]

/-- Each group is the beginning of a rest of the row. -/
theorem exists_rest_of_mem_chunks {xs run : List α} (h : run ∈ chunks size xs) :
    0 < size ∧ ∃ rest, rest ≠ [] ∧ run = rest.take size := by
  induction xs using chunks.induct size with
  | case1 xs hstop =>
    rw [chunks, dif_pos hstop] at h
    cases h
  | case2 xs hgo ih =>
    obtain ⟨hsize, hxs⟩ := not_or.1 hgo
    rw [chunks_of_ne_nil (Nat.pos_of_ne_zero hsize) hxs] at h
    rcases List.mem_cons.1 h with rfl | h
    · exact ⟨Nat.pos_of_ne_zero hsize, xs, hxs, rfl⟩
    · exact ih h

/-- Grouping a row fills the groups. -/
theorem filled_chunks (size : Nat) (xs : List α) : Filled size (chunks size xs) where
  ne_nil run hrun := by
    obtain ⟨hsize, rest, hrest, rfl⟩ := exists_rest_of_mem_chunks hrun
    exact fun hnil => hrest ((List.take_eq_nil_iff.1 hnil).resolve_left (Nat.ne_of_gt hsize))
  length_le run hrun := by
    obtain ⟨-, rest, -, rfl⟩ := exists_rest_of_mem_chunks hrun
    exact List.length_take_le size rest
  length_eq run hrun := length_of_mem_dropLast_chunks hrun

/-- A row that divides evenly has full groups only. -/
theorem chunks_of_length_eq_mul (hsize : 0 < size) {n : Nat} {xs : List α}
    (h : xs.length = n * size) :
    (chunks size xs).length = n ∧ ∀ run ∈ chunks size xs, run.length = size := by
  induction n generalizing xs with
  | zero =>
    rw [Nat.zero_mul] at h
    rw [chunks, dif_pos (Or.inr (List.eq_nil_of_length_eq_zero h))]
    exact ⟨rfl, nofun⟩
  | succ n ih =>
    rw [Nat.succ_mul] at h
    have hxs : xs ≠ [] := List.ne_nil_of_length_pos (by omega)
    -- one full group is taken off, and `n` of them are left
    have hrest : (xs.drop size).length = n * size := by
      rw [List.length_drop]
      omega
    obtain ⟨hcount, hfull⟩ := ih hrest
    rw [chunks_of_ne_nil hsize hxs]
    refine ⟨congrArg Nat.succ hcount, fun run hrun => ?_⟩
    rcases List.mem_cons.1 hrun with rfl | hrun
    · rw [List.length_take]
      omega
    · exact hfull run hrun

end Groups

/-! ### Shapes -/

namespace View

/-- **Regular arrays** of the given lengths, outermost first, of values that are no arrays. -/
def Regular : List Nat → View → Prop
  | [], v => ∀ inner, v ≠ .array inner
  | n :: lengths, v =>
    ∃ row, v = .array row ∧ row.length = n ∧ ∀ w ∈ row, Regular lengths w

/-- **Grouped rows.** Arrays as many levels deep as there are lengths, outermost first, over the
elements in their order. The arrays of a level have the length of that level, except for the last of
them, which may be shorter. The outermost array has any length. -/
structure Grouped (lengths : List Nat) (elements : List View) (view : View) : Prop where
  /-- The outermost array, whose length the bytes decide. -/
  root : ∃ row, view = .array row
  /-- The arrays `j` levels below it, in order. -/
  level : ∀ j n, 0 < j → lengths[j]? = some n →
    ∃ groups, flatten j [view] = groups.map .array ∧ Filled n groups
  /-- Below all levels are the elements, in order. -/
  flatten_eq : flatten lengths.length [view] = elements
  /-- The elements are where the arrays end. -/
  plain : ∀ v ∈ elements, ∀ inner, v ≠ .array inner

end View

namespace Decoder

variable {lengths : List Nat} {elements : List View}

/-- Grouping by some lengths and then by others is grouping by all of them. -/
theorem group_append {inner : List Nat} (h : ∀ n ∈ inner, 0 < n) (outer : List Nat)
    (elements : List View) :
    group (inner ++ outer) elements = group outer (group inner elements) := by
  induction inner generalizing elements with
  | nil => rfl
  | cons size inner ih =>
    have hsize : size ≠ 0 := Nat.ne_of_gt (h size List.mem_cons_self)
    rw [List.cons_append, group, if_neg hsize, group, if_neg hsize,
      ih (fun n hn => h n (List.mem_cons_of_mem size hn))]

/-- One more outer length is one more grouping, after the others. -/
theorem group_reverse_cons {size : Nat} (h : ∀ n ∈ size :: lengths, 0 < n)
    (elements : List View) :
    group (size :: lengths).reverse elements =
      (chunks size (group lengths.reverse elements)).map .array := by
  have hsize : size ≠ 0 := Nat.ne_of_gt (h size List.mem_cons_self)
  have hinner : ∀ n ∈ lengths.reverse, 0 < n :=
    fun n hn => h n (List.mem_cons_of_mem size (List.mem_reverse.1 hn))
  rw [List.reverse_cons, group_append hinner, group, if_neg hsize, group]

/-- Opening the arrays of the outer lengths leaves those of the inner ones. -/
theorem flatten_group_reverse {outer : List Nat} (h : ∀ n ∈ outer ++ lengths, 0 < n) :
    View.flatten outer.length (group (outer ++ lengths).reverse elements) =
      group lengths.reverse elements := by
  induction outer with
  | nil => rfl
  | cons size outer ih =>
    rw [List.cons_append] at h ⊢
    have hsize : 0 < size := h size List.mem_cons_self
    -- the outermost grouping came last, so it is opened first
    rw [group_reverse_cons h, List.length_cons, View.flatten_map_array, chunks_flatten hsize]
    exact ih fun n hn => h n (List.mem_cons_of_mem size hn)

/-- **A grouped row** has the shape of its inner lengths, whatever their product is. -/
theorem grouped_group (first : Nat) (h : ∀ n ∈ lengths, 0 < n)
    (hplain : ∀ v ∈ elements, ∀ inner, v ≠ .array inner) :
    View.Grouped (first :: lengths) elements (.array (group lengths.reverse elements)) where
  root := ⟨_, rfl⟩
  level j n hj hn := by
    obtain ⟨k, rfl⟩ : ∃ k, j = k + 1 := ⟨j - 1, by omega⟩
    rw [List.getElem?_cons_succ] at hn
    -- the lengths outside the level, its own and those inside
    obtain ⟨outer, inner, rfl, rfl⟩ : ∃ outer inner, lengths = outer ++ n :: inner ∧
        outer.length = k := by
      obtain ⟨hlt, rfl⟩ := List.getElem?_eq_some_iff.1 hn
      refine ⟨lengths.take k, lengths.drop (k + 1), ?_, List.length_take_of_le (by omega)⟩
      rw [List.getElem_cons_drop, List.take_append_drop]
    have hinner : ∀ m ∈ n :: inner, 0 < m := fun m hm => h m (List.mem_append_right outer hm)
    refine ⟨chunks n (group inner.reverse elements), ?_, filled_chunks n _⟩
    rw [View.flatten_array, flatten_group_reverse h, group_reverse_cons hinner]
  flatten_eq := by
    -- all lengths are outer ones here, and opening them leaves the elements
    have hall : ∀ n ∈ lengths ++ [], 0 < n := by rwa [List.append_nil]
    calc View.flatten (lengths.length + 1) [.array (group lengths.reverse elements)]
        = View.flatten lengths.length (group (lengths ++ []).reverse elements) := by
          rw [View.flatten_array, List.append_nil]
      _ = group [].reverse elements := flatten_group_reverse hall
      _ = elements := rfl
  plain := hplain

/-- **A row of as many elements as the lengths make** is put into regular arrays. -/
theorem regular_group (h : ∀ n ∈ lengths, 0 < n)
    (hplain : ∀ v ∈ elements, ∀ inner, v ≠ .array inner) {count : Nat}
    (hcount : elements.length = count * lengths.foldr (· * ·) 1) :
    (group lengths.reverse elements).length = count ∧
      ∀ v ∈ group lengths.reverse elements, v.Regular lengths := by
  induction lengths generalizing count with
  | nil => exact ⟨hcount.trans (Nat.mul_one count), hplain⟩
  | cons size lengths ih =>
    have hsize : 0 < size := h size List.mem_cons_self
    rw [List.foldr_cons, ← Nat.mul_assoc] at hcount
    -- the inner lengths make regular arrays, as many as fill groups of this size
    obtain ⟨hrow, hregular⟩ := ih (fun n hn => h n (List.mem_cons_of_mem size hn)) hcount
    obtain ⟨hgroups, hfull⟩ := chunks_of_length_eq_mul hsize hrow
    rw [group_reverse_cons h]
    refine ⟨by rw [List.length_map, hgroups], fun v hv => ?_⟩
    obtain ⟨run, hrun, rfl⟩ := List.mem_map.1 hv
    refine ⟨run, rfl, hfull run hrun, fun w hw => hregular w ?_⟩
    -- what is in a group was in the row
    rw [← chunks_flatten hsize (group lengths.reverse elements)]
    exact List.mem_flatten_of_mem hrun hw

/-! ### Decoded arrays of arrays -/

variable {d : Decoder} {bytes : Bytes} {nested : Nested} {t : CType} {offset length : Nat}
  {access : String}

/-- **Elements** are read at their places, one size after another. -/
theorem element_of_arrayElements
    (h : (d.arrayElements bytes nested t offset length access).outcome = .ok elements)
    {size : Nat} (hsize : d.registry.sizeOf t = .ok size) {i : Nat} {v : View}
    (hv : elements[i]? = some v) :
    (d.elementView bytes nested (d.registry.kindOf t) t (offset + i * size)
      s!"{access}[{i}]").outcome = .ok v := by
  unfold arrayElements at h
  dsimp only at h
  split at h
  · cases h
  rw [Traced.ofLayout_bind_of_ok ((elementSize_eq_sizeOf d t).trans hsize)] at h
  split at h
  · cases h
  -- the element is the result of its round, which reads at its place
  have hround := Traced.outcome_of_eachFrom h hv
  rw [Nat.zero_add] at hround
  split at hround
  · cases hround
  · next place hplace =>
    obtain ⟨-, rfl⟩ := elementPlace_eq_some_iff.1 hplace
    exact hround

/-- No element is an array. -/
theorem ne_array_of_elementView
    (hnested : ∀ {t offset access v}, (nested t offset access).outcome = .ok v →
      ∀ inner, v ≠ .array inner)
    {kind : CType.Kind} {v : View}
    (h : (d.elementView bytes nested kind t offset access).outcome = .ok v) (inner : List View) :
    v ≠ .array inner := by
  rintro rfl
  cases kind with
  | struct | union => exact hnested h inner rfl
  -- a primitive value is a literal, and so is an enumeration value
  | primitive =>
    rw [elementView, primitiveView] at h
    split at h
    · cases h
    · obtain ⟨run, -, h⟩ := Traced.outcome_bind_eq_ok_iff.1 h
      cases h
  | enumeration =>
    obtain ⟨e, -, h⟩ := Traced.outcome_bind_eq_ok_iff.1 h
    obtain ⟨run, -, h⟩ := Traced.outcome_bind_eq_ok_iff.1 h
    dsimp only at h
    split at h
    · cases h
    · obtain ⟨-, -, h⟩ := Traced.outcome_bind_eq_ok_iff.1 h
      cases h
  | functionPointer | array | objectPointer | unknown => cases h

/-- None of the elements read from a buffer is an array. -/
theorem ne_array_of_arrayElements
    (hnested : ∀ {t offset access v}, (nested t offset access).outcome = .ok v →
      ∀ inner, v ≠ .array inner)
    (h : (d.arrayElements bytes nested t offset length access).outcome = .ok elements) :
    ∀ v ∈ elements, ∀ inner, v ≠ .array inner := by
  intro v hv
  obtain ⟨size, hsize, -⟩ := exists_of_arrayElements h
  obtain ⟨i, hi⟩ := List.getElem?_of_mem hv
  exact ne_array_of_elementView hnested (element_of_arrayElements h hsize hi)

/-- **Arrays of arrays** anywhere in the buffer. The lengths are those that the usage gives to the
levels of the type; the bytes decide how many elements there are. -/
theorem shaped_nestedArrayView
    (hnested : ∀ {t offset access v}, (nested t offset access).outcome = .ok v →
      ∀ inner, v ≠ .array inner)
    {usage : Usage} (husage : usage ≠ .lazy) (hlevels : 0 < t.dimension)
    (hpos : ∀ n ∈ (t.arrayLengths usage).drop 1, 0 < n) {view : View}
    (h : (d.nestedArrayView bytes nested usage t offset length access).outcome = .ok view) :
    ∃ size elements, d.registry.sizeOf t.baseType = .ok size ∧ 0 < size ∧
      elements.length = length / size ∧
      (∀ i v, elements[i]? = some v →
        (d.elementView bytes nested (d.registry.kindOf t.baseType) t.baseType
          (offset + i * size) s!"{access}[{i}]").outcome = .ok v) ∧
      (t.arrayLengths usage).length = t.dimension ∧
      view.Grouped (t.arrayLengths usage) elements ∧
      (length = size * (t.arrayLengths usage).foldr (· * ·) 1 →
        view.Regular (t.arrayLengths usage)) := by
  obtain ⟨elements, helements, h⟩ := Traced.outcome_bind_eq_ok_iff.1 h
  cases h
  obtain ⟨size, hsize, hsizePos, hcount⟩ := exists_of_arrayElements helements
  have hplain : ∀ v ∈ elements, ∀ inner, v ≠ .array inner :=
    ne_array_of_arrayElements hnested helements
  -- outside lazy usage each level has a length, and the first is the outermost
  have hdimension : (t.arrayLengths usage).length = t.dimension := by
    rw [CType.arrayLengths_eq_map husage, List.length_map, CType.dimension]
  obtain ⟨first, lengths, hlengths⟩ : ∃ first lengths, t.arrayLengths usage = first :: lengths :=
    List.exists_cons_of_length_pos (hdimension ▸ hlevels)
  rw [hlengths, List.drop_one, List.tail_cons] at hpos
  refine ⟨size, elements, hsize, hsizePos, hcount,
    fun i v hv => element_of_arrayElements helements hsize hv, hdimension, ?_⟩
  rw [hlengths, List.drop_one, List.tail_cons]
  refine ⟨grouped_group first hpos hplain, fun hexact => ⟨_, rfl, ?_⟩⟩
  refine regular_group hpos hplain ?_
  -- as many bytes as the lengths make hold as many elements
  rw [hcount, hexact, Nat.mul_div_cancel_left _ hsizePos, List.foldr_cons]

/-- A type with several levels is decoded as an array of arrays. -/
theorem decode_eq_nestedArrayView (d : Decoder) (bytes : Bytes) {usage : Usage}
    (husage : usage ≠ .lazy) (hlevels : 1 < t.dimension) (name : String) :
    d.decode bytes t usage name =
      d.nestedArrayView bytes (d.recordView bytes usage d.config.maxDepth) usage t 0 bytes.length
        name := by
  have hsequence : d.sequenceView bytes t usage name =
      d.nestedArrayView bytes (d.recordView bytes usage d.config.maxDepth) usage t 0 bytes.length
        name := by
    rw [sequenceView]
    exact if_pos hlevels
  rw [decode]
  cases hcase : t.levels with
  | nil =>
    rw [CType.dimension, hcase] at hlevels
    cases hlevels
  | cons level inner =>
    cases level with
    | array n =>
      have hkind : d.registry.kindOf t = .array := by rw [Registry.kindOf, hcase]
      rw [hkind]
      exact hsequence
    | pointer =>
      have hkind : d.registry.kindOf t = .objectPointer := by rw [Registry.kindOf, hcase]
      -- a C string has one level only
      have hstring : t.isCString = false := by
        have hseveral : decide (t.levels.length = 1) = false :=
          decide_eq_false (Nat.ne_of_gt hlevels)
        rw [CType.isCString, CType.isSinglePointer, hseveral, Bool.false_and, Bool.false_and]
      rw [hkind]
      dsimp only
      rw [if_neg husage, hstring]
      exact hsequence

/-- **Arrays of arrays keep every element and the shape.** A buffer that is decoded as a type with
several levels gives a view that holds one element for each size of the base type that fits, in the
order of the buffer and each read at its own place. The view is as deep as the type. The arrays of
each inner level have the length of that level; only the last of them may be shorter, and none is
empty. A buffer of exactly as many bytes as the lengths make gives a regular array. -/
theorem nested_arrays_shaped (d : Decoder) {bytes : Bytes} {usage : Usage} {name : String}
    {view : View} (hlevels : 1 < t.dimension) (husage : usage ≠ .lazy)
    (hpos : ∀ n ∈ (t.arrayLengths usage).drop 1, 0 < n)
    (h : (d.decode bytes t usage name).outcome = .ok view) :
    ∃ size elements, d.registry.sizeOf t.baseType = .ok size ∧ 0 < size ∧
      elements.length = bytes.length / size ∧
      (∀ i v, elements[i]? = some v →
        (d.elementView bytes (d.recordView bytes usage d.config.maxDepth)
          (d.registry.kindOf t.baseType) t.baseType (i * size) s!"{name}[{i}]").outcome =
            .ok v) ∧
      (t.arrayLengths usage).length = t.dimension ∧
      view.Grouped (t.arrayLengths usage) elements ∧
      (bytes.length = size * (t.arrayLengths usage).foldr (· * ·) 1 →
        view.Regular (t.arrayLengths usage)) := by
  rw [decode_eq_nestedArrayView d bytes husage hlevels] at h
  have hshaped := shaped_nestedArrayView ne_array_of_recordView husage (by omega) hpos h
  simpa only [Nat.zero_add] using hshaped

/-- A decoder that knows no records. -/
def plainDecoder : Decoder := { method := "fill" }

/-- Two rows of two bytes each. -/
def byteRows : CType := ((CType.simple "uint8_t").array 2).array 2

/-- Three bytes make a row and a short one, and four bytes make two full rows. -/
theorem byteRows_shaped :
    (∃ view elements,
      (plainDecoder.decode [7, 8, 9] byteRows .parameter "m").outcome = .ok view ∧
        elements.length = 3 ∧ view.Grouped [2, 2] elements) ∧
    ∃ view, (plainDecoder.decode [6, 7, 8, 9] byteRows .parameter "m").outcome = .ok view ∧
      view.Regular [2, 2] := by
  obtain ⟨short, hshort⟩ : ∃ view,
      (plainDecoder.decode [7, 8, 9] byteRows .parameter "m").outcome = .ok view := ⟨_, rfl⟩
  obtain ⟨full, hfull⟩ : ∃ view,
      (plainDecoder.decode [6, 7, 8, 9] byteRows .parameter "m").outcome = .ok view := ⟨_, rfl⟩
  have hlengths : byteRows.arrayLengths .parameter = [2, 2] := rfl
  have hsize : plainDecoder.registry.sizeOf byteRows.baseType = .ok 1 := rfl
  obtain ⟨size, elements, hone, -, hcount, -, -, hgrouped, -⟩ :=
    nested_arrays_shaped plainDecoder (by decide) (by decide) (by decide) hshort
  obtain rfl : size = 1 := Except.ok.inj (hone.symm.trans hsize)
  obtain ⟨size, -, hone, -, -, -, -, -, hregular⟩ :=
    nested_arrays_shaped plainDecoder (by decide) (by decide) (by decide) hfull
  obtain rfl : size = 1 := Except.ok.inj (hone.symm.trans hsize)
  rw [hlengths] at hgrouped hregular
  exact ⟨⟨short, elements, hshort, hcount, hgrouped⟩, full, hfull, hregular rfl⟩

end Decoder

end SymVec

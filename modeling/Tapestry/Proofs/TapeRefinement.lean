import Tapestry.Proofs.TapeCells

/-!
# The tape is a function from indexes to bytes

The three parts of a tape divide the indexes between them: each array holds whole chunks and no
cell beyond the near limit, and a far chunk has no cell within it. Every write keeps this, so the
list of cells runs through the parts from the lowest index to the highest and shows each cell that
is not zero once.

Writes to a fresh tape have the effect they have on a function that is zero at first.
-/

namespace Tapestry.Tape

variable {index : Int} {cells : Array UInt8} {value : UInt8}

/-! ## The three parts of a tape -/

/-- Every cell lies in one part of the tape: the arrays are whole chunks within the near limit, and
far chunks are wholly outside of it, at indexes that fit a word. -/
structure WellFormed (tape : Tape) : Prop where
  right_chunks : chunkSize ∣ tape.right.size
  right_near : tape.right.size ≤ nearLimit
  left_chunks : chunkSize ∣ tape.left.size
  left_near : tape.left.size ≤ nearLimit
  far_outside : ∀ key ∈ tape.far, (key + 1) * chunkSize ≤ -nearLimit ∨ nearLimit ≤ key * chunkSize
  far_fits : ∀ key ∈ tape.far,
    -0x8000000000000000 ≤ key * chunkSize ∧ (key + 1) * chunkSize ≤ 0x8000000000000000

/-- The cells near the middle are dense. -/
theorem isDense_iff : isDense index = true ↔ -65536 ≤ index ∧ index < 65536 := by
  rw [isDense, Bool.and_eq_true, decide_eq_true_iff, decide_eq_true_iff]
  simp only [nearLimit]
  omega

/-- Growing an array of whole chunks for a position within the limit leaves it so. -/
theorem size_grow (position : Nat) (hchunks : chunkSize ∣ cells.size)
    (hnear : cells.size ≤ nearLimit) (hposition : position < nearLimit) :
    chunkSize ∣ (grow cells position).size ∧ (grow cells position).size ≤ nearLimit := by
  unfold grow
  split
  · exact ⟨hchunks, hnear⟩
  · rw [Array.size_append, Array.size_replicate]
    simp only [chunkSize, nearLimit] at *
    omega

/-- An empty tape is well formed. -/
theorem wellFormed_empty : empty.WellFormed where
  right_chunks := by simp [empty]
  right_near := by simp [empty, chunkSize, nearLimit]
  left_chunks := by simp [empty]
  left_near := by simp [empty]
  far_outside := by simp [empty]
  far_fits := by simp [empty]

/-- Changing a cell keeps the parts of the tape apart. -/
theorem WellFormed.modify {tape : Tape} (h : tape.WellFormed) (cell : Int64)
    (change : UInt8 → UInt8) : (tape.modify cell change).WellFormed := by
  obtain ⟨right, left, far⟩ := tape
  obtain ⟨hright, hrightNear, hleft, hleftNear, hfar, hfits⟩ := h
  unfold Tape.modify modifyAt
  dsimp only
  split
  case isTrue hdense =>
    rw [isDense_iff] at hdense
    split
    case isTrue hnonneg =>
      obtain ⟨hchunks, hnear⟩ := size_grow cell.toInt.toNat hright hrightNear
        (by simp only [nearLimit]; omega)
      exact ⟨by simpa using hchunks, by simpa using hnear, hleft, hleftNear, hfar, hfits⟩
    case isFalse hneg =>
      obtain ⟨hchunks, hnear⟩ := size_grow (leftward cell.toInt) hleft hleftNear
        (by simp only [nearLimit, leftward]; omega)
      exact ⟨hright, hrightNear, by simpa using hchunks, by simpa using hnear, hfar, hfits⟩
  case isFalse hdense =>
    rw [isDense_iff] at hdense
    -- The chunk of a far cell starts and ends on the same side of the limit as the cell.
    have hlow := cell.le_toInt
    have hhigh := cell.toInt_lt
    refine ⟨hright, hrightNear, hleft, hleftNear, fun key hkey => ?_, fun key hkey => ?_⟩
    · rw [farSet, Std.TreeMap.mem_insert] at hkey
      rcases hkey with heq | hold
      · obtain rfl : chunkOf cell.toInt = key := by simpa using heq
        simp only [chunkOf_eq, chunkSize, nearLimit]
        omega
      · exact hfar key hold
    · rw [farSet, Std.TreeMap.mem_insert] at hkey
      rcases hkey with heq | hold
      · obtain rfl : chunkOf cell.toInt = key := by simpa using heq
        simp only [chunkOf_eq, chunkSize]
        omega
      · exact hfits key hold

/-! ## Listing the cells -/

/-- Each cell has its index, counted from the first. -/
theorem mem_indexed {first : Int} {cells : List UInt8} :
    (index, value) ∈ indexed first cells ↔
      first ≤ index ∧ cells[(index - first).toNat]? = some value := by
  simp only [indexed, List.mem_map, Prod.exists, List.mem_zipIdx_iff_getElem?, Prod.mk.injEq]
  constructor
  · rintro ⟨value, offset, hcell, rfl, rfl⟩
    have hoffset : (first + offset - first).toNat = offset := by omega
    rw [hoffset]
    exact ⟨by omega, hcell⟩
  · rintro ⟨hfirst, hcell⟩
    exact ⟨value, (index - first).toNat, hcell, by omega, rfl⟩

/-- Listed cells lie behind the first index and are no more than there are. -/
theorem bounds_of_mem_indexed {first : Int} {cells : List UInt8} {item : Int × UInt8}
    (h : item ∈ indexed first cells) : first ≤ item.1 ∧ item.1 < first + cells.length := by
  obtain ⟨hfirst, hcell⟩ := mem_indexed.mp h
  obtain ⟨hlt, _⟩ := List.getElem?_eq_some_iff.mp hcell
  omega

/-- Cells are listed in ascending order of index. -/
theorem pairwise_indexed (first : Int) (cells : List UInt8) :
    (indexed first cells).Pairwise fun a b => a.1 < b.1 := by
  rw [indexed, List.pairwise_map]
  have hoffsets := List.pairwise_lt_range' (s := 0) (n := cells.length)
  rw [← List.zipIdx_map_snd, List.pairwise_map] at hoffsets
  refine hoffsets.imp fun hlt => ?_
  dsimp only
  omega

/-- The cells of a far chunk are listed under the index of the chunk. -/
theorem mem_farCells {tape : Tape} {side : Int → Bool} :
    (index, value) ∈ farCells tape side ↔ side (chunkOf index) = true ∧
      ∃ chunk, tape.far[chunkOf index]? = some chunk ∧ chunk.get (offsetOf index) = value := by
  simp only [farCells, List.mem_flatMap, List.mem_filter, Prod.exists, mem_indexed,
    Std.TreeMap.mem_toList_iff_getElem?_eq_some]
  constructor
  · rintro ⟨key, chunk, ⟨hchunk, hside⟩, hfirst, hcell⟩
    obtain ⟨hlt, hvalue⟩ := List.getElem?_eq_some_iff.mp hcell
    rw [Vector.length_toList] at hlt
    obtain rfl : chunkOf index = key := by
      simp only [chunkOf_eq, chunkSize] at hlt hfirst ⊢
      omega
    have hoffset : (index - chunkOf index * chunkSize).toNat = (offsetOf index).val := by
      simp only [val_offsetOf, chunkOf_eq, chunkSize]
      omega
    have hvalue : chunk[(offsetOf index).val] = value := by simpa [hoffset] using hvalue
    exact ⟨hside, chunk, hchunk, hvalue⟩
  · rintro ⟨hside, chunk, hchunk, hvalue⟩
    have hoffset : (index - chunkOf index * chunkSize).toNat = (offsetOf index).val := by
      simp only [val_offsetOf, chunkOf_eq, chunkSize]
      omega
    refine ⟨chunkOf index, chunk, ⟨hchunk, hside⟩, ?_, ?_⟩
    · simp only [chunkOf_eq, chunkSize]
      omega
    · have hvalue : chunk[(offsetOf index).val] = value := hvalue
      rw [hoffset]
      simpa using hvalue

/-- Far cells are listed by ascending index. -/
theorem pairwise_farCells (tape : Tape) (side : Int → Bool) :
    (farCells tape side).Pairwise fun a b => a.1 < b.1 := by
  apply List.pairwise_flatMap.mpr
  refine ⟨fun entry _ => pairwise_indexed _ _, ?_⟩
  have hkeys := Std.TreeMap.ordered_keys_toList (t := tape.far)
  refine (hkeys.filter _).imp fun {first second} hlt a ha b hb => ?_
  have hlt : first.1 < second.1 := Std.compare_eq_lt.mp hlt
  have hfirst := bounds_of_mem_indexed ha
  have hsecond := bounds_of_mem_indexed hb
  rw [Vector.length_toList] at hfirst hsecond
  simp only [chunkSize] at hfirst hsecond
  omega

/-- The cells to the left are those with negative indices. -/
theorem mem_leftCells :
    (index, value) ∈ indexed (-cells.size) cells.toList.reverse ↔
      index < 0 ∧ cells[leftward index]? = some value := by
  rw [mem_indexed]
  -- Reversed, the last cell of the array stands at the lowest index.
  have hplace (hlow : -(cells.size : Int) ≤ index) (hneg : index < 0) :
      cells.toList.reverse[(index - -cells.size).toNat]? = cells[leftward index]? := by
    rw [List.getElem?_reverse (by rw [Array.length_toList]; omega), Array.length_toList,
      ← Array.getElem?_toList]
    congr 1
    simp only [leftward]
    omega
  constructor
  · rintro ⟨hlow, hcell⟩
    obtain ⟨hlt, _⟩ := List.getElem?_eq_some_iff.mp hcell
    rw [List.length_reverse, Array.length_toList] at hlt
    have hneg : index < 0 := by omega
    exact ⟨hneg, hplace hlow hneg ▸ hcell⟩
  · rintro ⟨hneg, hcell⟩
    obtain ⟨hlt, _⟩ := Array.getElem?_eq_some_iff.mp hcell
    have hlow : -(cells.size : Int) ≤ index := by
      simp only [leftward] at hlt
      omega
    exact ⟨hlow, hplace hlow hneg ▸ hcell⟩

/-- A cell that is not zero has been allocated. -/
theorem getD_eq_iff {position : Nat} (hvalue : value ≠ 0) :
    cells.getD position 0 = value ↔ cells[position]? = some value := by
  rw [Array.getD_eq_getD_getElem?]
  cases cells[position]? with
  | none => simpa using hvalue.symm
  | some found => simp

/-- A far cell that is not zero is found in its chunk. -/
theorem farValue_eq_iff {far : Std.TreeMap Int (Vector UInt8 chunkSize)} (hvalue : value ≠ 0) :
    farValue far index = value ↔
      ∃ chunk, far[chunkOf index]? = some chunk ∧ chunk.get (offsetOf index) = value := by
  rw [farValue, Std.TreeMap.getD_eq_getD_getElem?]
  cases far[chunkOf index]? with
  | none => simpa [blank] using hvalue.symm
  | some chunk =>
    simp only [Option.getD_some, Option.some.injEq, exists_eq_left']
    rfl

section Listed

variable {tape : Tape} (h : tape.WellFormed)
include h

/-- A far chunk has no cell that an array has. -/
theorem WellFormed.not_isDense {side : Int → Bool} {item : Int × UInt8}
    (hitem : item ∈ farCells tape side) : ¬ isDense item.1 = true := by
  obtain ⟨_, chunk, hchunk, _⟩ := mem_farCells.mp hitem
  have hkey : chunkOf item.1 ∈ tape.far := Std.TreeMap.mem_iff_isSome_getElem?.mpr (by simp [hchunk])
  have houtside := h.far_outside _ hkey
  simp only [chunkOf_eq, chunkSize, nearLimit] at houtside
  rw [isDense_iff]
  omega

/-- The list of cells shows the cells that are not zero. -/
theorem WellFormed.mem_items :
    (index, value) ∈ tape.items ↔ tape.valueAt index = value ∧ value ≠ 0 := by
  have hright : (index, value) ∈ indexed 0 tape.right.toList ↔
      0 ≤ index ∧ tape.right[index.toNat]? = some value := by
    rw [mem_indexed, Int.sub_zero, Array.getElem?_toList]
  simp only [items, List.mem_filter, List.mem_append, bne_iff_ne, and_congr_left_iff]
  intro hvalue
  rw [hright, mem_leftCells, valueAt]
  by_cases hdense : isDense index = true
  · have hlow : (index, value) ∉ farCells tape (· < 0) := fun hmem => h.not_isDense hmem hdense
    have hhigh : (index, value) ∉ farCells tape (0 ≤ ·) := fun hmem => h.not_isDense hmem hdense
    rw [if_pos hdense]
    by_cases hnonneg : 0 ≤ index
    · rw [if_pos hnonneg, getD_eq_iff hvalue]
      simp [hlow, hhigh, hnonneg, Int.not_lt.mpr hnonneg]
    · rw [if_neg hnonneg, getD_eq_iff hvalue]
      simp [hlow, hhigh, hnonneg, Int.not_le.mp hnonneg]
  · -- Beyond the near limit the arrays have no cells.
    rw [isDense_iff] at hdense
    have hnoRight : ¬ (0 ≤ index ∧ tape.right[index.toNat]? = some value) := by
      rintro ⟨hnonneg, hcell⟩
      obtain ⟨hlt, _⟩ := Array.getElem?_eq_some_iff.mp hcell
      have hnear := h.right_near
      simp only [nearLimit] at hnear
      omega
    have hnoLeft : ¬ (index < 0 ∧ tape.left[leftward index]? = some value) := by
      rintro ⟨hneg, hcell⟩
      obtain ⟨hlt, _⟩ := Array.getElem?_eq_some_iff.mp hcell
      have hnear := h.left_near
      simp only [nearLimit, leftward] at hnear hlt
      omega
    rw [← isDense_iff] at hdense
    rw [if_neg hdense, farValue_eq_iff hvalue]
    simp only [hnoRight, hnoLeft, or_false, mem_farCells, decide_eq_true_iff]
    rw [← or_and_right]
    exact and_iff_right (by omega)

/-- Cells are listed by ascending index, from one part of the tape to the next. -/
theorem WellFormed.pairwise_items : tape.items.Pairwise fun a b => a.1 < b.1 := by
  have hleft (item : Int × UInt8) (hitem : item ∈ indexed (-tape.left.size) tape.left.toList.reverse) :
      -65536 ≤ item.1 ∧ item.1 < 0 := by
    have hbounds := bounds_of_mem_indexed hitem
    have hnear := h.left_near
    rw [List.length_reverse, Array.length_toList] at hbounds
    simp only [nearLimit] at hnear
    omega
  have hright (item : Int × UInt8) (hitem : item ∈ indexed 0 tape.right.toList) :
      0 ≤ item.1 ∧ item.1 < 65536 := by
    have hbounds := bounds_of_mem_indexed hitem
    have hnear := h.right_near
    rw [Array.length_toList] at hbounds
    simp only [nearLimit] at hnear
    omega
  have hlow (item : Int × UInt8) (hitem : item ∈ farCells tape (· < 0)) : item.1 < -65536 := by
    have hside : chunkOf item.1 < 0 := of_decide_eq_true (mem_farCells.mp hitem).1
    have hfar := h.not_isDense hitem
    rw [isDense_iff] at hfar
    simp only [chunkOf_eq, chunkSize] at hside
    omega
  have hhigh (item : Int × UInt8) (hitem : item ∈ farCells tape (0 ≤ ·)) : 65536 ≤ item.1 := by
    have hside : 0 ≤ chunkOf item.1 := of_decide_eq_true (mem_farCells.mp hitem).1
    have hfar := h.not_isDense hitem
    rw [isDense_iff] at hfar
    simp only [chunkOf_eq, chunkSize] at hside
    omega
  refine List.Pairwise.filter _ ?_
  simp only [List.pairwise_append, List.mem_append, pairwise_farCells, pairwise_indexed, true_and]
  refine ⟨⟨fun a ha b hb => ?_, fun a ha b hb => ?_⟩, fun a ha b hb => ?_⟩
  · exact Int.lt_of_lt_of_le (hlow a ha) (hleft b hb).1
  · have hneg : a.1 < 0 := by
      rcases ha with ha | ha
      · exact Int.lt_trans (hlow a ha) (by decide)
      · exact (hleft a ha).2
    exact Int.lt_of_lt_of_le hneg (hright b hb).1
  · have hnear : a.1 < 65536 := by
      rcases ha with (ha | ha) | ha
      · exact Int.lt_trans (hlow a ha) (by decide)
      · exact Int.lt_trans (hleft a ha).2 (by decide)
      · exact (hright a ha).2
    exact Int.lt_of_lt_of_le hnear (hhigh b hb)

/-- A cell that is not zero has an index that fits a word. -/
theorem WellFormed.exists_cell (hvalue : tape.valueAt index ≠ 0) :
    ∃ cell : Int64, cell.toInt = index := by
  have hfits : -0x8000000000000000 ≤ index ∧ index < 0x8000000000000000 := by
    by_cases hdense : isDense index = true
    · rw [isDense_iff] at hdense
      omega
    · rw [valueAt, if_neg hdense] at hvalue
      obtain ⟨chunk, hchunk, _⟩ := (farValue_eq_iff hvalue).mp rfl
      have hkey : chunkOf index ∈ tape.far :=
        Std.TreeMap.mem_iff_isSome_getElem?.mpr (by simp [hchunk])
      have hkey := h.far_fits _ hkey
      simp only [chunkOf_eq, chunkSize] at hkey
      omega
  exact ⟨.ofInt index, Int64.toInt_ofInt_of_le hfits.1 hfits.2⟩

/-- The list of cells in terms of cells. -/
theorem WellFormed.mem_items_iff_get :
    (index, value) ∈ tape.items ↔
      ∃ cell : Int64, cell.toInt = index ∧ tape.get cell = value ∧ value ≠ 0 := by
  rw [h.mem_items]
  constructor
  · rintro ⟨rfl, hvalue⟩
    obtain ⟨cell, rfl⟩ := h.exists_cell hvalue
    exact ⟨cell, rfl, rfl, hvalue⟩
  · rintro ⟨cell, rfl, hcell, hvalue⟩
    exact ⟨hcell, hvalue⟩

end Listed

/-! ## Writes in a row -/

/-- A change of one cell. -/
inductive Write where
  /-- Store a word. -/
  | set (cell value : Int64)
  /-- Add a word to what is there. -/
  | add (cell delta : Int64)

namespace Write

/-- What a change does to a tape. -/
def apply (tape : Tape) : Write → Tape
  | set cell value => tape.set cell value
  | add cell delta => tape.add cell delta

/-- What a change does to a function from indexes to bytes; words count modulo 256. -/
def update (cells : Int64 → UInt8) : Write → Int64 → UInt8
  | set cell value => Function.update cells cell (.ofInt value.toInt)
  | add cell delta => Function.update cells cell (.ofInt ((cells cell).toNat + delta.toInt))

/-- A fresh tape after some changes. -/
def tapeAfter (writes : List Write) : Tape := writes.foldl apply empty

/-- A function that was zero everywhere, after some changes. -/
def cellsAfter (writes : List Write) : Int64 → UInt8 := writes.foldl update fun _ => 0

/-- A write changes the cells as it says. -/
theorem get_apply (tape : Tape) (write : Write) : (write.apply tape).get = write.update tape.get := by
  cases write with
  | set cell value => rw [apply, Tape.set, get_modify, lowByte_eq_ofInt, update]
  | add cell delta => rw [apply, Tape.add, get_modify, add_lowByte, update]

/-- A write keeps a tape well formed. -/
theorem wellFormed_apply {tape : Tape} (h : tape.WellFormed) (write : Write) :
    (write.apply tape).WellFormed := by
  cases write with
  | set cell value => exact h.modify cell fun _ => lowByte value
  | add cell delta => exact h.modify cell (· + lowByte delta)

/-- Changes in a row do to a tape what they do to the function it stands for. -/
theorem get_foldl_apply (writes : List Write) (tape : Tape) :
    (writes.foldl apply tape).get = writes.foldl update tape.get := by
  induction writes generalizing tape with
  | nil => rfl
  | cons write rest ih => rw [List.foldl_cons, List.foldl_cons, ih, get_apply]

/-- Writes keep a tape well formed. -/
theorem wellFormed_foldl_apply (writes : List Write) {tape : Tape} (h : tape.WellFormed) :
    (writes.foldl apply tape).WellFormed := by
  induction writes generalizing tape with
  | nil => exact h
  | cons write rest ih => exact ih (wellFormed_apply h write)

/-- Whatever words are stored in cells of a fresh tape or added to them: every cell holds what the
same changes make of a function that is zero at first, the list of cells shows the cells that are not
zero, each once, the list of their indexes is ascending, and the parts of the tape are kept apart. -/
theorem tape_refines_cells (writes : List Write) :
    (tapeAfter writes).get = cellsAfter writes ∧
      (∀ index value, (index, value) ∈ (tapeAfter writes).items ↔
        ∃ cell : Int64, cell.toInt = index ∧ cellsAfter writes cell = value ∧ value ≠ 0) ∧
      ((tapeAfter writes).items.map Prod.fst).Nodup ∧
      (∀ index, index ∈ (tapeAfter writes).indexes ↔
        ∃ cell : Int64, cell.toInt = index ∧ cellsAfter writes cell ≠ 0) ∧
      (tapeAfter writes).indexes.Pairwise (· < ·) ∧ (tapeAfter writes).WellFormed := by
  have hget : (tapeAfter writes).get = cellsAfter writes := by
    rw [tapeAfter, get_foldl_apply, cellsAfter]
    congr 1
    funext cell
    exact get_empty cell
  have hformed : (tapeAfter writes).WellFormed := wellFormed_foldl_apply writes wellFormed_empty
  have hascending : (tapeAfter writes).indexes.Pairwise (· < ·) :=
    List.pairwise_map.mpr hformed.pairwise_items
  rw [← hget]
  refine ⟨rfl, fun _ _ => hformed.mem_items_iff_get, hascending.imp Int.ne_of_lt, fun index => ?_,
    hascending, hformed⟩
  simp only [indexes, List.mem_map, Prod.exists, hformed.mem_items_iff_get]
  constructor
  · rintro ⟨_, _, ⟨cell, hcell, rfl, hvalue⟩, rfl⟩
    exact ⟨cell, hcell, hvalue⟩
  · rintro ⟨cell, rfl, hvalue⟩
    exact ⟨_, _, ⟨cell, rfl, rfl, hvalue⟩, rfl⟩

end Write

end Tapestry.Tape

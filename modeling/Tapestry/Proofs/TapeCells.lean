import Mathlib.Logic.Function.Basic
import Tapestry.Tape

/-!
# The tape as a function from indexes to cells

Chunks, the two arrays and the far map do not show through `Tape.get`: a fresh tape is zero
everywhere, and changing a cell is a point update of the function. Adding a word to a cell is
addition modulo 256.
-/

namespace Tapestry.Tape

/-- Growing an array adds only zeros. -/
theorem getD_grow (cells : Array UInt8) (position other : Nat) :
    (grow cells position).getD other 0 = cells.getD other 0 := by
  unfold grow
  split
  · rfl
  · simp only [Array.getD_eq_getD_getElem?, Array.getElem?_append, Array.getElem?_replicate]
    split
    · rfl
    · rename_i hout
      rw [Array.getElem?_eq_none (by omega)]
      split <;> rfl

/-- A grown array holds the position it was grown for. -/
theorem lt_size_grow (cells : Array UInt8) (position : Nat) :
    position < (grow cells position).size := by
  unfold grow
  split
  · assumption
  · simp only [Array.size_append, Array.size_replicate, chunkSize]
    omega

/-- Changing a position of a grown array changes that position only. -/
theorem getD_grow_modify (cells : Array UInt8) (position other : Nat) (change : UInt8 → UInt8) :
    ((grow cells position).modify position change).getD other 0 =
      if other = position then change (cells.getD position 0) else cells.getD other 0 := by
  have hsize := lt_size_grow cells position
  by_cases heq : other = position
  · subst heq
    rw [if_pos rfl, ← getD_grow cells other other]
    simp [Array.getD_eq_getD_getElem?, Array.getElem?_modify, Array.getElem?_eq_getElem hsize]
  · rw [if_neg heq, ← getD_grow cells position other]
    simp [Array.getD_eq_getD_getElem?, Array.getElem?_modify, Ne.symm heq]

/-- A chunk and a place in it determine the index. -/
theorem eq_of_chunkOf_of_offsetOf {a b : Int} (hchunk : chunkOf a = chunkOf b)
    (hoffset : offsetOf a = offsetOf b) : a = b := by
  have hrest := congrArg Fin.val hoffset
  rw [val_offsetOf, val_offsetOf] at hrest
  rw [chunkOf_eq, chunkOf_eq] at hchunk
  simp only [chunkSize] at hrest hchunk
  omega

/-- Setting a far cell leaves the cells at all other far indexes alone. -/
theorem farValue_farSet (far : Std.TreeMap Int (Vector UInt8 chunkSize)) (index other : Int)
    (value : UInt8) :
    farValue (farSet far index value) other =
      if other = index then value else farValue far other := by
  unfold farValue farSet
  by_cases hchunk : chunkOf index = chunkOf other
  · rw [Std.TreeMap.getD_insert, if_pos (by simpa using hchunk)]
    by_cases heq : other = index
    · simp [heq]
    · have hplace : (offsetOf index).val ≠ (offsetOf other).val := fun h =>
        heq (eq_of_chunkOf_of_offsetOf hchunk (Fin.ext h)).symm
      simp [heq, hchunk, Vector.getElem_set_ne _ _ hplace]
  · rw [Std.TreeMap.getD_insert, if_neg (by simpa using hchunk),
      if_neg (fun h => hchunk (congrArg chunkOf h.symm))]

/-- Changing the cell at an index leaves the cells at all other indexes alone. -/
theorem valueAt_modifyAt (tape : Tape) (index other : Int) (change : UInt8 → UInt8) :
    (tape.modifyAt index change).valueAt other =
      if other = index then change (tape.valueAt index) else tape.valueAt other := by
  obtain ⟨right, left, far⟩ := tape
  by_cases hdense : isDense index
  · by_cases hright : 0 ≤ index
    · simp only [modifyAt, valueAt, hdense, hright, if_true, getD_grow_modify]
      by_cases heq : other = index
      · simp [heq, hdense, hright]
      · by_cases hother : 0 ≤ other
        · simp [heq, hother, show other.toNat ≠ index.toNat by omega]
        · simp [heq, hother]
    · simp only [modifyAt, valueAt, hdense, hright, if_true, if_false, getD_grow_modify]
      by_cases heq : other = index
      · simp [heq, hdense, hright]
      · by_cases hother : 0 ≤ other
        · simp [heq, hother]
        · have hplace : leftward other ≠ leftward index := by simp only [leftward]; omega
          simp [heq, hother, hplace]
  · simp only [modifyAt, valueAt, hdense, if_false, farValue_farSet, Bool.false_eq_true]
    by_cases heq : other = index
    · simp [heq, hdense]
    · simp [heq]

/-- Changing a cell is a point update. -/
theorem get_modify (tape : Tape) (cell : Int64) (change : UInt8 → UInt8) :
    (tape.modify cell change).get = Function.update tape.get cell (change (tape.get cell)) := by
  funext other
  rw [Function.update_apply]
  simp only [get, modify, valueAt_modifyAt, Int64.toInt_inj]

/-- A fresh tape is zero everywhere. -/
theorem get_empty (cell : Int64) : empty.get cell = 0 := by
  unfold get valueAt empty
  split
  · split
    · simp only [Array.getD_eq_getD_getElem?, Array.getElem?_replicate]
      split <;> rfl
    · rfl
  · simp [farValue, blank]

/-- The low byte of a word is the word modulo 256. -/
theorem lowByte_eq_ofInt (word : Int64) : lowByte word = .ofInt word.toInt := by
  have hint : word.toInt = word.toBitVec.toInt := rfl
  have hnat : word.toUInt64.toNat = word.toBitVec.toNat := rfl
  have hlt := word.toBitVec.isLt
  rw [← UInt8.toNat_inj]
  simp only [lowByte, UInt8.ofInt, UInt64.toNat_toUInt8, UInt8.toNat_ofNat', hint, hnat,
    BitVec.toInt_eq_toNat_cond]
  split <;> omega

/-- Adding the low byte of a word is adding the word modulo 256. -/
theorem add_lowByte (byte : UInt8) (word : Int64) :
    byte + lowByte word = .ofInt (byte.toNat + word.toInt) := by
  have hbyte : UInt8.ofInt byte.toNat = byte := by
    rw [← UInt8.toNat_inj]
    have := byte.toNat_lt
    simp only [UInt8.ofInt, UInt8.toNat_ofNat']
    omega
  rw [UInt8.ofInt_add, hbyte, lowByte_eq_ofInt]

end Tapestry.Tape

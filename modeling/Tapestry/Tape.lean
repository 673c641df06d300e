import Std.Data.TreeMap
import Tapestry.Text

/-!
# The tape

A tape has a byte cell for every signed 64-bit index, all zero at first. Cells near index 0
lie in two arrays, one for each direction, which grow by whole chunks as cells are written.
Cells further out lie in chunks of their own, so that a far write costs one chunk.

Reading allocates nothing. The number of allocated cells can be asked for.
-/

namespace Tapestry

/-- Cells are allocated by this many at a time. -/
def Tape.chunkSize : Nat := 64

/-- A tape of byte cells. -/
structure Tape where
  /-- Cells 0, 1, 2 and so on. -/
  right : Array UInt8
  /-- Cells -1, -2, -3 and so on. -/
  left : Array UInt8
  /-- Chunks beyond the dense part, by the index of their first cell over the chunk size. -/
  far : Std.TreeMap Int (Vector UInt8 Tape.chunkSize)

namespace Tape

/-- Cells at indexes from `-nearLimit` to below `nearLimit` lie in the two arrays. -/
def nearLimit : Nat := 65536

/-- A tape of zeros with one chunk allocated. -/
def empty : Tape := { right := Array.replicate chunkSize 0, left := #[], far := {} }

/-- Whether a cell lies in one of the two arrays. -/
def isDense (index : Int) : Bool := -nearLimit ≤ index && index < nearLimit

/-- The position of a negative index in the left array. -/
def leftward (index : Int) : Nat := (-index - 1).toNat

/-- The chunk of a far index and the place within it. Division cuts off towards zero, so an index
below a chunk boundary on the negative side is moved to the chunk below. -/
def farChunk (index : Int) : Int × Int :=
  let key := index.tdiv chunkSize
  let offset := index.tmod chunkSize
  if offset < 0 then (key - 1, offset + chunkSize) else (key, offset)

/-- Chunks are found by rounding down, on both sides of index 0. -/
theorem farChunk_eq (index : Int) : farChunk index = (index / chunkSize, index % chunkSize) := by
  have hpos : (0 : Int) < chunkSize := by decide
  have hdiv := Int.mul_tdiv_add_tmod index chunkSize
  have hlow := Int.lt_tmod_of_pos index hpos
  have hhigh := Int.tmod_lt_of_pos index hpos
  unfold farChunk
  dsimp only
  rw [apply_ite (· = _), Prod.mk.injEq, Prod.mk.injEq]
  split
  case isTrue hneg =>
    obtain ⟨hkey, hoffset⟩ := (Int.ediv_emod_unique hpos).mpr
      ⟨show index.tmod chunkSize + chunkSize + chunkSize * (index.tdiv chunkSize - 1) = index by
        rw [Int.mul_sub]; omega, by omega, by omega⟩
    exact ⟨hkey.symm, hoffset.symm⟩
  case isFalse hnonneg =>
    obtain ⟨hkey, hoffset⟩ := (Int.ediv_emod_unique hpos).mpr
      ⟨(Int.add_comm _ _).trans hdiv, by omega, hhigh⟩
    exact ⟨hkey.symm, hoffset.symm⟩

/-- The chunk a far index lies in. -/
def chunkOf (index : Int) : Int := (farChunk index).1

/-- The place of an index within its chunk. -/
def offsetOf (index : Int) : Fin chunkSize :=
  ⟨(farChunk index).2.toNat, by rw [farChunk_eq]; simp only [chunkSize]; omega⟩

/-- The chunk of a far index is found by division that rounds down. -/
theorem chunkOf_eq (index : Int) : chunkOf index = index / chunkSize := by
  rw [chunkOf, farChunk_eq]

/-- The place of a far index is the remainder of that division. -/
theorem val_offsetOf (index : Int) : (offsetOf index).val = (index % chunkSize).toNat :=
  congrArg (fun place : Int × Int => place.2.toNat) (farChunk_eq index)

/-- A chunk of zeros. -/
def blank : Vector UInt8 chunkSize := Vector.replicate chunkSize 0

/-- The value a far cell has in its chunk. -/
def farValue (far : Std.TreeMap Int (Vector UInt8 chunkSize)) (index : Int) : UInt8 :=
  (far.getD (chunkOf index) blank)[offsetOf index]

/-- Store a value in a far cell. -/
def farSet (far : Std.TreeMap Int (Vector UInt8 chunkSize)) (index : Int) (value : UInt8) :
    Std.TreeMap Int (Vector UInt8 chunkSize) :=
  far.insert (chunkOf index) ((far.getD (chunkOf index) blank).set (offsetOf index) value)

/-- The value of the cell at an index. -/
def valueAt (tape : Tape) (index : Int) : UInt8 :=
  if isDense index then
    if 0 ≤ index then tape.right.getD index.toNat 0 else tape.left.getD (leftward index) 0
  else farValue tape.far index

/-- The value of a cell. -/
def get (tape : Tape) (cell : Int64) : UInt8 := tape.valueAt cell.toInt

/-- Grow an array by whole chunks until it holds a position. -/
def grow (cells : Array UInt8) (position : Nat) : Array UInt8 :=
  if position < cells.size then cells
  else cells ++ Array.replicate ((position / chunkSize + 1) * chunkSize - cells.size) 0

/-- Change the cell at an index, allocating it if need be. -/
def modifyAt (tape : Tape) (index : Int) (change : UInt8 → UInt8) : Tape :=
  match tape with
  | ⟨right, left, far⟩ =>
    if isDense index then
      if 0 ≤ index then ⟨(grow right index.toNat).modify index.toNat change, left, far⟩
      else ⟨right, (grow left (leftward index)).modify (leftward index) change, far⟩
    else ⟨right, left, farSet far index (change (farValue far index))⟩

/-- Change one cell. -/
def modify (tape : Tape) (cell : Int64) (change : UInt8 → UInt8) : Tape :=
  tape.modifyAt cell.toInt change

/-- The low byte of a word. -/
def lowByte (word : Int64) : UInt8 := word.toUInt64.toUInt8

/-- Store the low byte of a word in a cell. -/
def set (tape : Tape) (cell value : Int64) : Tape := tape.modify cell fun _ => lowByte value

/-- Add to a cell modulo 256. -/
def add (tape : Tape) (cell delta : Int64) : Tape := tape.modify cell (· + lowByte delta)

/-- The number of allocated cells. -/
def size (tape : Tape) : Nat := tape.right.size + tape.left.size + tape.far.size * chunkSize

/-- The cells of an array by index, from a first index upward. -/
def indexed (first : Int) (cells : List UInt8) : List (Int × UInt8) :=
  cells.zipIdx.map fun (value, offset) => (first + offset, value)

/-- The cells of far chunks on one side. -/
def farCells (tape : Tape) (side : Int → Bool) : List (Int × UInt8) :=
  (tape.far.toList.filter fun (key, _) => side key).flatMap fun (key, chunk) =>
    indexed (key * chunkSize) chunk.toList

/-- The cells that are not zero, by ascending index. -/
def items (tape : Tape) : List (Int × UInt8) :=
  (farCells tape (· < 0) ++ indexed (-tape.left.size) tape.left.toList.reverse ++
    indexed 0 tape.right.toList ++ farCells tape (0 ≤ ·)).filter fun (_, value) => value != 0

/-- The indexes of the cells that are not zero, ascending. -/
def indexes (tape : Tape) : List Int := tape.items.map Prod.fst

end Tape

end Tapestry

import Mathlib.Logic.Function.Basic
import Tapestry.Machine.Policy
import Tapestry.Proofs.LoopTree

/-!
# What a tree of loops means

The meaning of a tree is a relation between configurations, with no index of a current
instruction in it: a loop runs its body for as long as the current cell is not zero. A run
finishes, is starved by a read that finds no input, or is cut short by whoever watches it.
-/

namespace Tapestry

/-- What can be seen of a run: what it wrote, every cell, the cursor, and the input left. -/
@[ext]
structure Configuration where
  output : List UInt8
  cells : Int64 → UInt8
  cursor : Int64
  input : List UInt8

namespace Configuration

/-- Nothing written, all cells zero, the cursor on cell 0. -/
def start (input : List UInt8) : Configuration :=
  { output := [], cells := fun _ => 0, cursor := 0, input }

/-- The current cell. -/
def cell (s : Configuration) : UInt8 := s.cells s.cursor

/-- Put a value into the current cell. -/
def setCell (s : Configuration) (value : UInt8) : Configuration :=
  { s with cells := Function.update s.cells s.cursor value }

@[simp] theorem cell_setCell (s : Configuration) (value : UInt8) : (s.setCell value).cell = value := by
  simp [cell, setCell]

@[simp] theorem setCell_setCell (s : Configuration) (first second : UInt8) :
    (s.setCell first).setCell second = s.setCell second := by
  simp [setCell]

@[simp] theorem setCell_cell (s : Configuration) : s.setCell s.cell = s := by
  simp [cell, setCell]

/-- Take a byte of input into the current cell. Without input the policy decides, and `none`
means that it stops the run. -/
def takeByte (policy : EofPolicy) (s : Configuration) : Option Configuration :=
  match s.input, policy with
  | byte :: rest, _ => some { s.setCell byte with input := rest }
  | [], .zero => some (s.setCell 0)
  | [], .keep => some s
  | [], .halt | [], .unknown _ => none

end Configuration

namespace Instruction

/-- What an instruction does by itself. Brackets, `nop` and undefined operations do nothing. -/
def effect (policy : EofPolicy) (instruction : Instruction) (s : Configuration) :
    Option Configuration :=
  match instruction.op with
  | .moveCell => some (s.setCell (.ofInt (s.cell.toNat + instruction.arg.toInt)))
  | .moveCursor => some { s with cursor := s.cursor + instruction.arg }
  | .print => some { s with output := s.output ++ [s.cell] }
  | .read => s.takeByte policy
  | .nop | .undefined _ | .loopEnter | .loopExit => some s

end Instruction

/-- How a run of a tree comes to stand. -/
inductive Exit where
  /-- It ran to the end of the tree. -/
  | finished
  /-- A read found no input and the policy is to stop. -/
  | starved
  /-- It was cut short. -/
  | cut
  deriving DecidableEq

/-- The runs of a tree from one configuration to another. -/
inductive Fragment.Runs (policy : EofPolicy) :
    List Fragment → Configuration → Exit → Configuration → Prop
  | finish {s} : Runs policy [] s .finished s
  | cut {tree s} : Runs policy tree s .cut s
  | plain {i rest s mid exit t} (effect_eq : i.val.effect policy s = some mid)
      (behind : Runs policy rest mid exit t) : Runs policy (.plain i :: rest) s exit t
  | starve {i rest s} (effect_eq : i.val.effect policy s = none) :
      Runs policy (.plain i :: rest) s .starved s
  /-- A loop over a zero cell is passed over. -/
  | skip {enter last body rest s exit t} (cell_eq : s.cell = 0) (behind : Runs policy rest s exit t) :
      Runs policy (.loop enter last body :: rest) s exit t
  /-- A loop whose body finished is run again. -/
  | again {enter last body rest s mid exit t} (cell_ne : s.cell ≠ 0)
      (inside : Runs policy body s .finished mid)
      (onward : Runs policy (.loop enter last body :: rest) mid exit t) :
      Runs policy (.loop enter last body :: rest) s exit t
  /-- A loop whose body did not finish goes no further. -/
  | inside {enter last body rest s exit t} (cell_ne : s.cell ≠ 0)
      (inside : Runs policy body s exit t) (exit_ne : exit ≠ .finished) :
      Runs policy (.loop enter last body :: rest) s exit t

/-- A finished run can also be cut short, at its very end. -/
theorem Fragment.Runs.cut_of_finished {policy : EofPolicy} {tree : List Fragment}
    {s t : Configuration} (h : Runs policy tree s .finished t) : Runs policy tree s .cut t := by
  generalize hexit : Exit.finished = exit at h
  induction h with
  | finish => exact .cut
  | cut | starve => cases hexit
  | plain effect_eq _ ih => exact .plain effect_eq (ih hexit)
  | skip cell_eq _ ih => exact .skip cell_eq (ih hexit)
  | again cell_ne inside _ _ ih => exact .again cell_ne inside (ih hexit)
  | inside _ _ exit_ne => exact absurd hexit.symm exit_ne

end Tapestry

import Tapestry.Code.Instruction

/-!
# Loop brackets

Before a program runs, every loop bracket is linked to its partner: the argument of each becomes the
index of the other, whatever it was before. A program is accepted only if its brackets pair up.
-/

namespace Tapestry

/-- An instruction of a copy of a program whose brackets are linked, or are yet to be. Its argument is
wide enough for every index. -/
structure LinkedInstruction where
  op : Opcode
  arg : Int
  comment : Text
  deriving DecidableEq, Repr

namespace Instruction

/-- The instruction in a copy of a program. -/
def copied (instruction : Instruction) : LinkedInstruction :=
  ⟨instruction.op, instruction.arg.toInt, instruction.comment⟩

/-- The instruction with an index for its argument. -/
def linkedTo (instruction : Instruction) (index : Nat) : LinkedInstruction :=
  ⟨instruction.op, index, instruction.comment⟩

end Instruction

namespace Brackets

/-- How brackets fail to pair up. -/
inductive Unbalanced where
  /-- An exit at this index closes no loop. -/
  | exit (index : Nat)
  /-- The loop entered at this index is never closed. -/
  | enter (index : Nat)
  deriving DecidableEq, Repr

/-- What an unbalanced program is told. -/
def Unbalanced.message : Unbalanced → Text
  | exit index => "vm: unbalanced loop brackets: unmatched loop exit at " ++ Number.nat index
  | enter index => "vm: unbalanced loop brackets: unmatched loop enter at " ++ Number.nat index

/-- Overwrite the argument of the instruction at a place. -/
def setArg (code : Array LinkedInstruction) (place index : Nat) : Array LinkedInstruction :=
  code.modify place fun instruction => { instruction with arg := index }

/-- Link the brackets of the instructions from `index` on. `opened` are the loops entered and
not yet closed, innermost first, and `code` is the copy that the links are written into: both ends of
a loop when it is closed. -/
def linkFrom : (index : Nat) → (opened : List Nat) → (code : Array LinkedInstruction) →
    List Instruction → Except Unbalanced (Array LinkedInstruction)
  | _, [], code, [] => .ok code
  | _, enter :: _, _, [] => .error (.enter enter)
  | index, opened, code, instruction :: rest =>
    match instruction.op, opened with
    | .loopEnter, opened => linkFrom (index + 1) (index :: opened) code rest
    | .loopExit, [] => .error (.exit index)
    | .loopExit, enter :: opened =>
      linkFrom (index + 1) opened (setArg (setArg code enter index) index enter) rest
    | _, opened => linkFrom (index + 1) opened code rest

/-- A copy of a program with its brackets linked. -/
def link (program : List Instruction) : Except Unbalanced (Array LinkedInstruction) :=
  linkFrom 0 [] (program.map Instruction.copied).toArray program

end Brackets

end Tapestry

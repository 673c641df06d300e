import Tapestry.Text.Quoted

/-!
# Instructions

A program is a list of instructions for a machine with one cursor on a tape of byte cells.
The argument of a move is its signed distance. Loop brackets are made with a negative argument; a
machine overwrites it, in its own copy of the program, with the index of the partner. Only a `nop`
uses its comment.
-/

namespace Tapestry

/-- What an instruction does. Every byte is the code of exactly one operation. -/
inductive Opcode where
  /-- Do nothing; carries a comment. -/
  | nop
  /-- Add the argument to the current cell. -/
  | moveCell
  /-- Add the argument to the cursor. -/
  | moveCursor
  /-- Write the current cell to the output. -/
  | print
  /-- Read one byte of input into the current cell. -/
  | read
  /-- Go past the matching exit if the cell is zero. -/
  | loopEnter
  /-- Go back to the matching enter if the cell is not zero. -/
  | loopExit
  /-- A byte from 7 on, which names no operation and does nothing. -/
  | undefined (rest : Fin 249)
  deriving DecidableEq, Repr

namespace Opcode

/-- The operations that have a name, in the order of their codes. -/
def all : List Opcode := [nop, moveCell, moveCursor, print, read, loopEnter, loopExit]

/-- The code of an operation. -/
def toByte : Opcode → UInt8
  | nop => 0
  | moveCell => 1
  | moveCursor => 2
  | print => 3
  | read => 4
  | loopEnter => 5
  | loopExit => 6
  | undefined rest => UInt8.ofNat (rest.val + 7)

/-- The operation with a given code. -/
def ofByte (byte : UInt8) : Opcode :=
  match byte.toNat with
  | 0 => nop
  | 1 => moveCell
  | 2 => moveCursor
  | 3 => print
  | 4 => read
  | 5 => loopEnter
  | 6 => loopExit
  | rest + 7 => undefined (Fin.ofNat 249 rest)

/-- The name of an operation. -/
def name : Opcode → Text
  | nop => "NOP"
  | moveCell => "MOVE_CELL"
  | moveCursor => "MOVE_CURSOR"
  | print => "PRINT"
  | read => "READ"
  | loopEnter => "LOOP_ENTER"
  | loopExit => "LOOP_EXIT"
  | undefined rest => "UNKNOWN(0x" ++ Number.hexUpper 2 (rest.val + 7) ++ ")"

/-- The symbol of an operation, for a move the symbol of a positive step. -/
def symbol? : Opcode → Option UInt8
  | nop | undefined _ => none
  | moveCell => some 43
  | moveCursor => some 62
  | print => some 46
  | read => some 44
  | loopEnter => some 91
  | loopExit => some 93

/-- The symbol of a negative step. -/
def negative? : Opcode → Option UInt8
  | moveCell => some 45
  | moveCursor => some 60
  | _ => none

/-- Moves repeat their symbol as often as the argument says. -/
def isCounted : Opcode → Bool
  | moveCell | moveCursor => true
  | _ => false

/-- The two loop brackets. -/
def isLoop : Opcode → Bool
  | loopEnter | loopExit => true
  | _ => false

end Opcode

/-- One instruction. -/
structure Instruction where
  op : Opcode
  arg : Int64
  comment : Text
  deriving DecidableEq, Repr

namespace Instruction

/-- Add to the current cell. -/
def moveCell (delta : Int64) : Instruction := ⟨.moveCell, delta, []⟩

/-- Add to the cursor. -/
def moveCursor (delta : Int64) : Instruction := ⟨.moveCursor, delta, []⟩

/-- Write the current cell. -/
def print : Instruction := ⟨.print, 0, []⟩

/-- Read one byte. -/
def read : Instruction := ⟨.read, 0, []⟩

/-- Open a loop whose partner is not known yet. -/
def loopEnter : Instruction := ⟨.loopEnter, -1, []⟩

/-- Close a loop whose partner is not known yet. -/
def loopExit : Instruction := ⟨.loopExit, -1, []⟩

/-- Do nothing and say why. -/
def nop (comment : Text) : Instruction := ⟨.nop, 0, comment⟩

/-- The symbol of an operation as text. -/
def symbolText (op : Opcode) : Text := op.symbol?.toList

/-- The instruction as it is shown in dumps. -/
def render (instruction : Instruction) : Text :=
  let arg := Number.int instruction.arg.toInt
  match instruction.op with
  | .moveCell => "BC(+, " ++ arg ++ ")"
  | .moveCursor => "BC(>, " ++ arg ++ ")"
  | .print | .read => "BC(" ++ symbolText instruction.op ++ ")"
  | .loopEnter | .loopExit =>
    if instruction.arg < 0 then Text.ofString "BC(" ++ symbolText instruction.op ++ ")"
    else Text.ofString "BC(" ++ symbolText instruction.op ++ ", " ++ arg ++ ")"
  | .nop => "BC(NOP, " ++ Quoted.write instruction.comment ++ ")"
  | .undefined _ => "BC(" ++ instruction.op.name ++ ", " ++ arg ++ ")"

end Instruction

/-- The number of instructions that are not `nop`. -/
def effective (program : List Instruction) : Nat := program.countP (·.op != .nop)

/-- Where in the source an instruction comes from. -/
structure Location where
  /-- The source unit; empty when unknown. -/
  file : Text
  /-- Line, counted from 1; 0 when there is none. -/
  line : Int
  /-- Column, counted from 1; 0 when there is none. -/
  column : Int
  deriving DecidableEq, Repr

namespace Location

/-- Unit, line and column, without the unit when it is unknown. -/
def render (location : Location) : Text :=
  let place := Number.int location.line ++ ":" ++ Number.int location.column
  if location.file.isEmpty then place else location.file ++ ":" ++ place

/-- The location of the instruction at an index, if it has one in the source. -/
def at? (locations : List Location) (index : Int) : Option Location :=
  if index < 0 then none
  else (locations[index.toNat]?).bind fun location =>
    if 0 < location.line then some location else none

end Location

end Tapestry

import Tapestry.Code.Instruction

/-!
# Programs as symbols

A program can be written with eight symbols. A move is its symbol once for every step, and
what has no symbol is left out. Reading collects runs of one move symbol into a single move
and ignores every other byte.
-/

namespace Tapestry.Symbols

/-- How often a move writes its symbol. The least word has no positive counterpart and writes
none. -/
def count (arg : Int64) : Nat := if arg < 0 then (-arg).toInt.toNat else arg.toInt.toNat

/-- The symbols of one instruction. -/
def ofInstruction (instruction : Instruction) : Text :=
  if instruction.op.isCounted then
    List.replicate (count instruction.arg)
      ((if instruction.arg < 0 then instruction.op.negative? else instruction.op.symbol?).getD 0)
  else instruction.op.symbol?.toList

/-- The symbols of a program. -/
def write (program : List Instruction) : Text := program.flatMap ofInstruction

/-- The instructions of a run of one symbol. -/
def ofRun (symbol : UInt8) (length : Nat) : List Instruction :=
  match symbol with
  | 43 => [.moveCell (.ofInt length)]
  | 45 => [.moveCell (.ofInt (-length))]
  | 62 => [.moveCursor (.ofInt length)]
  | 60 => [.moveCursor (.ofInt (-length))]
  | 46 => List.replicate length .print
  | 44 => List.replicate length .read
  | 91 => List.replicate length .loopEnter
  | 93 => List.replicate length .loopExit
  | _ => []

/-- The program that a text spells. -/
def read (text : Text) : List Instruction :=
  (text.splitBy (· == ·)).flatMap fun run => ofRun (run.headD 0) run.length

end Tapestry.Symbols

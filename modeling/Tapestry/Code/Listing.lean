import Tapestry.Code.Symbols

/-!
# Listings

A listing shows a program one instruction to a line, indented by loop depth, with the place in
the source each instruction comes from where that is known.
-/

namespace Tapestry.Listing

/-- Pad on the right with spaces up to a number of glyphs. -/
def padRight (width : Nat) (t : Text) : Text :=
  t ++ List.replicate (width - (Utf8.glyphs t).length) 32

/-- One instruction without its place. -/
def ofInstruction (instruction : Instruction) : Text :=
  match instruction.op with
  | .moveCell | .moveCursor =>
    instruction.op.name ++ " " ++ Number.signed instruction.arg.toInt ++ " ; " ++
      Symbols.ofInstruction instruction
  | .loopEnter | .loopExit =>
    if instruction.arg < 0 then instruction.op.name
    else instruction.op.name ++ " -> " ++ Number.hexUpper 4 instruction.arg.toInt.toNat
  | .nop => if instruction.comment.isEmpty then "NOP" else Text.ofString "NOP ; " ++ instruction.comment
  | .print | .read | .undefined _ => instruction.op.name

/-- One line: index, instruction indented by loop depth, and its place if known. -/
def line (index depth : Nat) (instruction : Instruction) (location : Option Location) : Text :=
  let shown := Text.times depth "  " ++ ofInstruction instruction
  let number := Number.hexUpper 4 index ++ "  "
  match location with
  | none => number ++ shown
  | some location => number ++ padRight 30 shown ++ " ; line " ++ location.render

/-- The loop depth an instruction is shown at, given the depth before it. -/
def shownDepth (depth : Nat) (instruction : Instruction) : Nat :=
  if instruction.op = .loopExit then depth - 1 else depth

/-- The loop depth behind an instruction shown at a depth. -/
def nextDepth (depth : Nat) (instruction : Instruction) : Nat :=
  if instruction.op = .loopEnter then depth + 1 else depth

/-- The lines of the instructions from an index on, added to those before. -/
def lines (done : Array Text) : (index depth : Nat) → List Instruction → List Location → List Text
  | _, _, [], _ => done.toList
  | index, depth, instruction :: rest, locations =>
    let depth := shownDepth depth instruction
    let location := locations.head?.filter fun location => 0 < location.line
    lines (done.push (line index depth instruction location)) (index + 1)
      (nextDepth depth instruction) rest locations.tail

/-- The version of the program format that listings mention. -/
def version : Nat := 1

/-- The listing of a program under a name, with the places its instructions come from. -/
def write (name : Text) (program : List Instruction) (locations : List Location) : Text :=
  Text.unlines
    ((if name.isEmpty then [] else [Text.ofString "; === " ++ name ++ " ==="]) ++
      ["; Brain Bytecode v" ++ Number.nat version,
        "; Instructions: " ++ Number.nat program.length ++ " (" ++ Number.nat (effective program) ++
          " effective)",
        [], "; Code:"] ++
      lines #[] 0 0 program locations)

end Tapestry.Listing

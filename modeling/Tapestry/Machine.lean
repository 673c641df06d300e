import Tapestry.Machine.Policy
import Tapestry.Machine.Brackets
import Tapestry.Tape

/-!
# The machine

The machine steps through a program with one cursor on a tape. It reads bytes from an input
and writes bytes to an output, and may be limited in the number of steps it takes. Running past
the last instruction is the normal end.
-/

namespace Tapestry

/-- Where reads take their bytes from. -/
structure Input where
  /-- The bytes that are left. -/
  bytes : List UInt8
  /-- What reading beyond them says, if it is not the end of the input. -/
  broken : Option Text := none

/-- Where writes put their bytes. -/
structure Output where
  /-- The bytes written. -/
  bytes : Array UInt8 := #[]
  /-- The most bytes that can be written. -/
  capacity : Option Nat := none

/-- Why a machine cannot go on. -/
inductive Stop where
  /-- The program has come to its end. -/
  | halted
  /-- The steps allowed have been taken. -/
  | stepLimit (limit : Nat)
  /-- The output refused a byte. -/
  | write (reason : Text)
  /-- The input could not be read. -/
  | read (reason : Text)
  deriving DecidableEq, Repr

/-- What a stopped machine says. -/
def Stop.message : Stop → Text
  | halted => "vm: halted"
  | stepLimit limit => "vm: step limit exceeded: " ++ Number.nat limit
  | write reason => "vm: write: " ++ reason
  | read reason => "vm: read: " ++ reason

/-- A machine at work on a program. -/
structure Machine where
  /-- The program, with the brackets linked. -/
  program : Array LinkedInstruction
  /-- What a read does at the end of the input. -/
  policy : EofPolicy
  /-- The number of steps allowed; 0 for any number. -/
  limit : Nat
  /-- The index of the next instruction. -/
  pc : Nat
  /-- The index of the current cell. -/
  cursor : Int64
  tape : Tape
  input : Input
  output : Output
  /-- The number of steps taken. -/
  steps : Nat
  /-- Whether a read has ended the program. -/
  stopped : Bool

/-- How to run a program. -/
structure MachineOptions where
  input : Input := { bytes := [] }
  output : Output := {}
  policy : EofPolicy := .halt
  limit : Nat := 0
  tape : Tape := .empty

namespace Machine

/-- Prepare a program, if its brackets pair up. -/
def load (program : List Instruction) (options : MachineOptions) :
    Except Brackets.Unbalanced Machine :=
  (Brackets.link program).map fun program =>
    { program
      policy := options.policy
      limit := options.limit
      pc := 0
      cursor := 0
      tape := options.tape
      input := options.input
      output := options.output
      steps := 0
      stopped := false }

/-- Whether the program has come to its end. -/
def isHalted (m : Machine) : Bool := m.stopped || m.program.size ≤ m.pc

/-- The current cell. -/
def cell (m : Machine) : UInt8 := m.tape.get m.cursor

/-- Go on to the next instruction. -/
def advance (m : Machine) : Machine := { m with pc := m.pc + 1 }

/-- Write the current cell, if the output takes it. -/
def writeCell (m : Machine) : Machine × Option Stop :=
  if m.output.capacity.any (· ≤ m.output.bytes.size) then (m, some (.write "sink full"))
  else ({ m with output := { m.output with bytes := m.output.bytes.push m.cell } }.advance, none)

/-- What a read does when the input is used up. -/
def readPastEnd (m : Machine) : Machine × Option Stop :=
  match m.input.broken, m.policy with
  | some reason, _ => (m, some (.read reason))
  | none, .zero => ({ m with tape := m.tape.set m.cursor 0 }.advance, none)
  | none, .keep => (m.advance, none)
  | none, _ => ({ m with stopped := true }, some .halted)

/-- Read one byte into the current cell. -/
def readCell (m : Machine) : Machine × Option Stop :=
  match m.input.bytes with
  | byte :: rest =>
    ({ m with tape := m.tape.modify m.cursor fun _ => byte, input := { m.input with bytes := rest } }.advance,
      none)
  | [] => m.readPastEnd

/-- Add to the current cell. -/
def addCell (m : Machine) (delta : Int64) : Machine :=
  { m with tape := m.tape.add m.cursor delta }.advance

/-- Go past the instruction at an index. -/
def jump (m : Machine) (index : Int) : Machine := { m with pc := index.toNat + 1 }

/-- Execute one instruction. -/
def execute (m : Machine) (instruction : LinkedInstruction) : Machine × Option Stop :=
  match instruction.op with
  | .moveCell => (m.addCell (.ofInt instruction.arg), none)
  | .moveCursor => ({ m with cursor := m.cursor + Int64.ofInt instruction.arg }.advance, none)
  | .print => m.writeCell
  | .read => m.readCell
  | .loopEnter => (if m.cell = 0 then m.jump instruction.arg else m.advance, none)
  | .loopExit => (if m.cell = 0 then m.advance else m.jump instruction.arg, none)
  | .nop | .undefined _ => (m.advance, none)

/-- Take one step, or say why none can be taken. A step that fails counts as taken but leaves
the machine at its instruction. -/
def step (m : Machine) : Machine × Option Stop :=
  if m.stopped then (m, some .halted)
  else
    match m.program[m.pc]? with
    | none => ({ m with stopped := true }, some .halted)
    | some instruction =>
      if 0 < m.limit && m.limit ≤ m.steps then (m, some (.stepLimit m.limit))
      else { m with steps := m.steps + 1 }.execute instruction

/-- How far a run came. -/
inductive Ending where
  /-- The program came to its end. -/
  | halted
  /-- The machine stopped for another reason. -/
  | failed (stop : Stop)
  /-- The run was cut off with steps still to take. -/
  | unfinished
  deriving DecidableEq, Repr

/-- How a run ends that stops for a reason. -/
def Ending.ofStop : Stop → Ending
  | .halted => .halted
  | stop => .failed stop

/-- Take steps until the machine stops, at most `fuel` of them. -/
def runFor : (fuel : Nat) → Machine → Machine × Ending
  | 0, m => (m, .unfinished)
  | fuel + 1, m =>
    match m.step with
    | (m, none) => runFor fuel m
    | (m, some stop) => (m, .ofStop stop)

/-- Take steps until the machine stops. Nothing comes of a run that never does. -/
def run (m : Machine) : Option (Machine × Ending) :=
  match m.step with
  | (m, none) => m |>.run
  | (m, some stop) => some (m, .ofStop stop)
partial_fixpoint

end Machine

end Tapestry

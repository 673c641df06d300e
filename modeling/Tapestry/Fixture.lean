import Tapestry.File.Disk
import Tapestry.Machine

/-!
# Fixtures

A fixture is a program that says in comment lines what running it must produce: which input it
is given, what it writes, which values cells hold at the end, or which fault it must fail with.
A line that starts with `#~` is such a directive. Later directives override earlier ones, except
that descriptions add up and each cell has its own expectation.
-/

namespace Tapestry

/-- A failure that a fixture may ask for. -/
inductive Expectation where
  | fault (kind : FaultKind)
  | unbalanced
  | stepLimit
  deriving DecidableEq, Repr

namespace Expectation

/-- Every failure that can be asked for. -/
def all : List Expectation := FaultKind.all.map fault ++ [unbalanced, stepLimit]

/-- The word that asks for a failure. -/
def name : Expectation → Text
  | fault kind => kind.name
  | unbalanced => "Unbalanced"
  | stepLimit => "StepLimit"

/-- The failure that a word asks for. -/
def ofName? (name : Text) : Option Expectation := all.find? (·.name == name)

/-- The words that ask for failures, in byte order. -/
def names : List Text := Text.sort (all.map name)

end Expectation

/-- Why a program could not be built or run to its end. -/
inductive RunFailure where
  | expansion (error : Error)
  | unbalanced (unbalanced : Brackets.Unbalanced)
  | stop (stop : Stop)

namespace RunFailure

/-- What the failure says. -/
def message : RunFailure → Text
  | expansion e => e.message
  | unbalanced u => u.message
  | stop s => s.message

/-- Whether the failure is the one asked for. -/
def meets : RunFailure → Expectation → Bool
  | expansion e, .fault kind => e.failure.isA kind
  | unbalanced _, .unbalanced => true
  | stop (.stepLimit _), .stepLimit => true
  | _, _ => false

end RunFailure

/-- Load a program and run it to its end, which is the step limit if it comes no earlier. -/
def Machine.exec (program : List Instruction) (options : MachineOptions) (limit : Nat) :
    Except RunFailure Machine :=
  match Machine.load program { options with limit } with
  | .error unbalanced => .error (.unbalanced unbalanced)
  | .ok m =>
    match m.runFor (limit + 1) with
    | (_, .failed stop) => .error (.stop stop)
    | (m, _) => .ok m

/-! ## Directives -/

/-- One line of expectations. -/
inductive Directive where
  | description (words : Text)
  | input (bytes : Text)
  | output (bytes : Text)
  | cell (index value : Int)
  | policy (policy : EofPolicy)
  | failure (expected : Expectation)
  deriving DecidableEq, Repr

namespace Directive

/-- What a directive line starts with. -/
def mark : Text := "#~"

/-- Read a quoted text for a directive. -/
def quoted (command argument : Text) : Except Text Text :=
  match Quoted.read? argument with
  | some bytes => .ok bytes
  | none => .error (command ++ " wants a quoted string, got " ++ argument)

/-- Read an index and a value. -/
def readCell (argument : Text) : Except Text Directive :=
  match Utf8.fields argument with
  | [index, value] =>
    match Number.int? index, Number.int? value with
    | some index, some value => .ok (.cell index value)
    | _, _ => .error ("memory wants integers, got " ++ argument)
  | _ => .error "memory wants an index and a value"

/-- Read a directive from its command word and the rest of its line. -/
def read (command argument : Text) : Except Text Directive :=
  if command = Text.ofString "desc" then .ok (.description argument)
  else if command = Text.ofString "input" then (quoted command argument).map .input
  else if command = Text.ofString "output" then (quoted command argument).map .output
  else if command = Text.ofString "memory" then readCell argument
  else if command = Text.ofString "eof" then (EofPolicy.read argument).map .policy
  else if command = Text.ofString "error" then
    match Expectation.ofName? argument with
    | some expected => .ok (.failure expected)
    | none => .error ("unknown error kind " ++ Quoted.write argument)
  else .error ("unknown directive " ++ Quoted.write command)

/-- The directive on a line, if the line has one. -/
def ofLine (line : Text) : Except Text (Option Directive) :=
  let line := Utf8.trim line
  if mark.isPrefixOf line then
    let (command, argument) := Text.cut 32 (Utf8.trim (line.drop mark.length))
    (read command (Utf8.trim argument)).map some
  else .ok none

end Directive

/-! ## Fixtures -/

/-- A program and what running it must produce. -/
structure Fixture where
  /-- The file the fixture was read from; empty for one held in memory. -/
  path : Text
  source : Text
  descriptions : List Text := []
  input : Text := []
  /-- What must be written, if that is checked. -/
  output : Option Text := none
  /-- The values that cells must hold, by ascending index. -/
  cells : List (Int × Int) := []
  policy : EofPolicy := .halt
  /-- The failure the program must end in, if it must fail. -/
  expected : Option Expectation := none

/-- Why a fixture cannot be read. -/
inductive FixtureFault where
  /-- The file cannot be read. -/
  | file (fault : FileFault)
  /-- A line is too long. -/
  | lineTooLong (path : Text)
  /-- A directive makes no sense. -/
  | directive (path : Text) (line : Nat) (complaint : Text)
  deriving DecidableEq, Repr

namespace FixtureFault

/-- A file name in front of what is wrong in it. -/
def inFile (path message : Text) : Text :=
  if path.isEmpty then message else path ++ ": " ++ message

/-- What the fault says. -/
def message : FixtureFault → Text
  | file fault => fault.message
  | lineTooLong path => inFile path Trouble.lineTooLong.message
  | directive path line complaint =>
    inFile path ("fixture: bad directive: line " ++ Number.nat line ++ ": " ++ complaint)

end FixtureFault

namespace Fixture

/-- Set the expectation of a cell, over an earlier one. -/
def putCell (index value : Int) : List (Int × Int) → List (Int × Int)
  | [] => [(index, value)]
  | (i, v) :: rest =>
    if index < i then (index, value) :: (i, v) :: rest
    else if index = i then (index, value) :: rest
    else (i, v) :: putCell index value rest

/-- Take a directive into account. -/
def apply (fixture : Fixture) : Directive → Fixture
  | .description words => { fixture with descriptions := fixture.descriptions ++ [words] }
  | .input bytes => { fixture with input := bytes }
  | .output bytes => { fixture with output := some bytes }
  | .cell index value => { fixture with cells := putCell index value fixture.cells }
  | .policy policy => { fixture with policy }
  | .failure expected => { fixture with expected := some expected }

/-- Take the directives among numbered lines into account. -/
def applyLines (fixture : Fixture) : Nat → List Text → Except FixtureFault Fixture
  | _, [] => .ok fixture
  | number, line :: rest =>
    match Directive.ofLine line with
    | .error complaint => .error (.directive fixture.path number complaint)
    | .ok none => applyLines fixture (number + 1) rest
    | .ok (some directive) => applyLines (fixture.apply directive) (number + 1) rest

/-- Read the directives of a source text. -/
def parse (path source : Text) : Except FixtureFault Fixture := do
  let reading := Lines.read source
  let fixture ← applyLines { path, source } 1 reading.lines
  if reading.overlong then .error (.lineTooLong path) else .ok fixture

/-- Read a fixture file. -/
def load (disk : Disk) (path : Text) : Except FixtureFault Fixture :=
  match disk.read path with
  | .error fault => .error (.file fault)
  | .ok source => parse path source

/-- The descriptions, one per line. -/
def description (fixture : Fixture) : Text := Text.join "\n" fixture.descriptions

/-- What a fixture held in memory is called. -/
def unnamed : Text := "<fixture>"

/-- The name of the fixture in reports. -/
def name (fixture : Fixture) : Text := if fixture.path.isEmpty then unnamed else fixture.path

/-- The steps a fixture may take. -/
def stepLimit : Nat := 1000000

/-- Build the program of a fixture. A fixture file is built as it stands on the disk. -/
def build (fixture : Fixture) (disk : Disk) (options : BuildOptions) : Except Error Build :=
  if fixture.path.isEmpty then (disk.setup options).build unnamed fixture.source
  else disk.build options fixture.path

/-- Build and run the program of a fixture. -/
def execute (fixture : Fixture) (disk : Disk) (options : BuildOptions) : Except RunFailure Machine :=
  match fixture.build disk options with
  | .error error => .error (.expansion error)
  | .ok build =>
    Machine.exec build.code { input := { bytes := fixture.input }, policy := fixture.policy }
      stepLimit

/-- How a program falls short of its expectations. -/
inductive Mismatch where
  /-- It should have failed and did not. -/
  | succeeded (expected : Expectation)
  /-- It should have failed in another way. -/
  | otherFailure (expected : Expectation) (failure : RunFailure)
  /-- It failed. -/
  | failed (failure : RunFailure)
  /-- It wrote something else. -/
  | output (written wanted : Text)
  /-- A cell holds something else. -/
  | cell (index : Int) (value : UInt8) (wanted : Int)

/-- What a mismatch says. -/
def Mismatch.wording : Mismatch → Text
  | succeeded expected => "expected " ++ expected.name ++ " error, program ran"
  | otherFailure expected failure =>
    "expected " ++ expected.name ++ " error, got " ++ failure.message
  | failed failure => failure.message
  | output written wanted => "output " ++ Quoted.write written ++ ", want " ++ Quoted.write wanted
  | cell index value wanted =>
    "cell " ++ Number.int index ++ " = " ++ Number.nat value.toNat ++ ", want " ++ Number.int wanted

/-- The first cell that does not hold what it should. -/
def checkCells (tape : Tape) (cells : List (Int × Int)) : Option Mismatch :=
  cells.findSome? fun (index, wanted) =>
    let value := tape.get (.ofInt index)
    if (value.toNat : Int) = wanted then none else some (.cell index value wanted)

/-- Compare a finished machine with the expected output and cells. -/
def checkMachine (fixture : Fixture) (m : Machine) : Option Mismatch :=
  let written := m.output.bytes.toList
  match fixture.output with
  | some wanted => if written = wanted then checkCells m.tape fixture.cells else some (.output written wanted)
  | none => checkCells m.tape fixture.cells

/-- The first expectation that a run does not meet. -/
def check (fixture : Fixture) (outcome : Except RunFailure Machine) : Option Mismatch :=
  match fixture.expected, outcome with
  | some expected, .ok _ => some (.succeeded expected)
  | some expected, .error failure =>
    if failure.meets expected then none else some (.otherFailure expected failure)
  | none, .error failure => some (.failed failure)
  | none, .ok m => fixture.checkMachine m

/-- Build and run a fixture; what it says about the first expectation it does not meet. -/
def run (fixture : Fixture) (disk : Disk) (options : BuildOptions) : Option Text :=
  (fixture.check (fixture.execute disk options)).map fun mismatch =>
    "fixture: failed: " ++ fixture.name ++ ": " ++ mismatch.wording

end Fixture

end Tapestry

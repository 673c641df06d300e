import Tapestry.Binding
import Tapestry.Code.Instruction

/-!
# Built-in functions

The functions every root scope starts with. Those with two underscores emit single
instructions. The address helpers with one underscore expect the cursor on cell 0 and leave
it there: they go to a cell, act, and come back.
-/

namespace Tapestry

namespace Primitive

/-- Go to a cell from cell 0, act, and come back. -/
def around (cell : Int) (action : List Instruction) : List Instruction :=
  Instruction.moveCursor (.ofInt cell) :: action ++ [Instruction.moveCursor (.ofInt (-cell))]

/-- The instructions of a call, if its arguments are bound as the parameters say. -/
def code? (primitive : Primitive) (bindings : Bindings) : Option (List Instruction) :=
  match primitive with
  | plus => do
    let value ← Bindings.int? bindings "value"
    some [.moveCell (.ofInt value)]
  | minus => do
    let value ← Bindings.int? bindings "value"
    some [.moveCell (.ofInt (-value))]
  | move | moveAbs => do
    let value ← Bindings.int? bindings "value"
    some [.moveCursor (.ofInt value)]
  | moveAbsLeft => do
    let value ← Bindings.int? bindings "value"
    some [.moveCursor (.ofInt (-value))]
  | moveRel => do
    let source ← Bindings.cell? bindings "from"
    let target ← Bindings.cell? bindings "to"
    some [.moveCursor (.ofInt (target - source))]
  | print => some [.print]
  | read => some [.read]
  | loopEnter => some [.loopEnter]
  | loopExit => some [.loopExit]
  | add => do
    let cell ← Bindings.cell? bindings "addr"
    let value ← Bindings.int? bindings "value"
    some (around cell [.moveCell (.ofInt value)])
  | null => do
    let cell ← Bindings.cell? bindings "addr"
    some (around cell [.loopEnter, .moveCell (-1), .loopExit])
  | printAt => do
    let cell ← Bindings.cell? bindings "addr"
    some (around cell [.print])
  | readAt => do
    let cell ← Bindings.cell? bindings "addr"
    some (around cell [.read])
  | mov => do
    let target ← Bindings.cell? bindings "to"
    let source ← Bindings.cell? bindings "from"
    some (around source
      [.loopEnter, .moveCell (-1), .moveCursor (.ofInt (target - source)), .moveCell 1,
        .moveCursor (.ofInt (source - target)), .loopExit])
  | mov2 => do
    let first ← Bindings.cell? bindings "to1"
    let second ← Bindings.cell? bindings "to2"
    let source ← Bindings.cell? bindings "from"
    some (around source
      [.loopEnter, .moveCell (-1), .moveCursor (.ofInt (first - source)), .moveCell 1,
        .moveCursor (.ofInt (second - first)), .moveCell 1,
        .moveCursor (.ofInt (source - second)), .loopExit])

end Primitive

namespace Function

/-- A built-in function of the root scope. -/
def builtin (name : Text) (action : Action) (params : List Param) : Function :=
  { name, params, lifetime := .everywhere, action, style := .positional, source := none, file := [],
    parse := 0 }

/-- A built-in function that reads the header of a definition. -/
def definer (name : Text) (wantsBlock : Bool) : Function :=
  { name, params := [], lifetime := .everywhere, action := .define wantsBlock, style := .header,
    source := none, file := [], parse := 0 }

/-- Every built-in function, in the order of the root scope. -/
def builtins : List Function :=
  [ builtin "__plus" (.primitive .plus) [⟨"value", .int⟩],
    builtin "__minus" (.primitive .minus) [⟨"value", .int⟩],
    builtin "__move" (.primitive .move) [⟨"value", .int⟩],
    builtin "__move_abs" (.primitive .moveAbs) [⟨"value", .int⟩],
    builtin "__move_abs_l" (.primitive .moveAbsLeft) [⟨"value", .int⟩],
    builtin "__move_rel" (.primitive .moveRel) [⟨"from", .address⟩, ⟨"to", .address⟩],
    builtin "__print" (.primitive .print) [],
    builtin "__read" (.primitive .read) [],
    builtin "__loop_enter" (.primitive .loopEnter) [],
    builtin "__loop_exit" (.primitive .loopExit) [],
    builtin "_add" (.primitive .add) [⟨"addr", .address⟩, ⟨"value", .int⟩],
    builtin "_null" (.primitive .null) [⟨"addr", .address⟩],
    builtin "_print" (.primitive .printAt) [⟨"addr", .address⟩],
    builtin "_read" (.primitive .readAt) [⟨"addr", .address⟩],
    builtin "_mov" (.primitive .mov) [⟨"to", .address⟩, ⟨"from", .address⟩],
    builtin "_mov2" (.primitive .mov2) [⟨"to1", .address⟩, ⟨"to2", .address⟩, ⟨"from", .address⟩],
    builtin "reg" .register [⟨"name", .identifier⟩],
    builtin "import" .expandUnit [⟨"path", .str⟩],
    definer "macro" false,
    definer "macroblock" true ]

end Function

/-- The root scope before any statement has run. -/
def Scope.initial : Scope := { symbols := Function.builtins.map .func, blocks := [] }

namespace Register

/-- The cell indexes that variables hold, each once and no negative ones, behind those collected
before. -/
def collect (used : List Int) : List Variable → List Int
  | [] => used
  | v :: rest =>
    match v.value.datum with
    | .cell index =>
      if index < 0 ∨ index ∈ used then collect used rest else collect (used ++ [index]) rest
    | _ => collect used rest

/-- The first position from `position` on that differs from its element, or else the one behind
the list. -/
def mismatch (position : Nat) : List Int → Nat
  | [] => position
  | used :: rest => if used ≠ position then position else mismatch (position + 1) rest

/-- The least cell index that no variable holds. -/
def allocate (vars : List Variable) : Nat :=
  mismatch 0 ((collect [] vars).mergeSort fun a b => decide (a ≤ b))

end Register

end Tapestry

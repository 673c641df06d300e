import Tapestry.Builtin

/-!
# Visits

Expanding a program visits expressions, and each visit may lead to others below it. A visit
records the function the expression resolved to, the arguments bound for it, and the
instructions it emitted itself. The visits of an expansion are kept in the order they began;
with their depths this is a tree in pre-order.

A unit is parsed anew each time it is read, and what one parse gives is not what another gives, even
if it looks the same. So parses are numbered: the main unit has the first, and each unit that is
expanded the next. A visit knows the parse its expression comes from, and so do the bodies that
templates and callers keep for later.

An error is raised without a place. It is noted where it was raised once it comes to the visit that
failed, and a place that was noted stays, however many visits the error passes on its way out.
-/

namespace Tapestry

/-- The record of one visited expression. -/
structure Visit where
  /-- The number of visits around this one; the root of a program has none. -/
  depth : Nat
  node : Node
  /-- The unit the expression was written in. -/
  file : Text
  /-- The parse the expression comes from. -/
  parse : Nat
  /-- The depth of the environment the expression runs in. -/
  envDepth : Nat
  /-- The function called, once it has been found. -/
  function : Option Function
  /-- The depth of the scope that held the function. -/
  home : Nat
  /-- The arguments, once they have been bound. -/
  bindings : Bindings
  /-- The parse that the expressions below come from, if the visit leads to any. -/
  bodyParse : Nat
  /-- The instructions emitted by the visit itself. -/
  code : List Instruction

namespace Visit

/-- The parse that the expressions inside visits come from: inside the root alone, that of the main
unit. -/
def parseInside (trail : List Visit) : Nat := trail.head?.elim 0 Visit.bodyParse

/-- A visit inside others that has just begun. The root is not among those. -/
def start (trail : List Visit) (node : Node) (file : Text) (env : Env) : Visit :=
  { depth := trail.length + 1, node, file, parse := parseInside trail, envDepth := env.depth
    function := none, home := 0, bindings := [], bodyParse := 0, code := [] }

/-- The root of a program. -/
def root (name : Text) (body : List Node) : Visit :=
  { depth := 0, node := .root body, file := name, parse := 0, envDepth := 0, function := none
    home := 0, bindings := [], bodyParse := 0, code := [] }

/-- Where the expression stands in its unit. -/
def location (visit : Visit) : Location :=
  let token := visit.node.callee
  if token.line ≤ 0 then { file := visit.file, line := 0, column := 0 }
  else { file := visit.file, line := token.position.1, column := token.position.2 }

/-- What the visit is about, on one line. -/
def label (visit : Visit) : Text :=
  match visit.function, visit.node with
  | some function, _ => function.signature
  | none, .splice _ owner => "code <" ++ owner ++ ">"
  | none, node => node.head.render

/-- The depth of the scope that belongs to the visit; the root owns the root scope. -/
def scopeDepth (visit : Visit) : Nat := if visit.depth = 0 then 0 else visit.envDepth + 1

/-- Whether a visit calls the function that expands units. -/
def asksForUnit (visit : Visit) : Bool :=
  visit.function.any fun function =>
    match function.action with
    | .expandUnit => true
    | _ => false

/-- Location and label, then the bound arguments, as a trace shows them. -/
def traceLines (visit : Visit) : List Text :=
  (visit.location.render ++ "  " ++ visit.label) ::
    visit.bindings.map fun v => Text.ofString "    " ++ v.render

/-- Label, bound arguments and emitted instructions, indented by depth. -/
def dumpLines (visit : Visit) : List Text :=
  let indent := Text.times visit.depth "    "
  (indent ++ visit.label) :: visit.bindings.map (fun v => indent ++ "  " ++ v.render) ++
    (if visit.code.isEmpty then []
      else [indent ++ "  " ++ Text.join " " (visit.code.map Instruction.render)])

/-- The location of each instruction the visit emitted. -/
def locations (visit : Visit) : List Location := visit.code.map fun _ => visit.location

end Visit

/-- Why an expansion stopped: the failure, and where it was raised, once that has been noted. The
place is the chain of visits from the innermost outward; the root of the program is not among them. -/
structure Error where
  failure : Failure
  context : Option (List Visit)

namespace Error

/-- A failure that has no place. -/
def ofFailure (failure : Failure) : Error := ⟨failure, none⟩

/-- Note the place of an error, unless one has been noted before. -/
def noteAt (chain : List Visit) (error : Error) : Error :=
  match error.context with
  | none => { error with context := some chain }
  | some _ => error

/-- The visits around the failure. -/
def trail (error : Error) : List Visit := error.context.getD []

/-- The trace of the visits around the failure. -/
def trace (error : Error) : List Text := error.trail.flatMap Visit.traceLines

/-- The failure on one line. -/
def message (error : Error) : Text := error.failure.message

/-- The blamed word. -/
def token? (error : Error) : Option Token :=
  match error.failure with
  | .fault fault => fault.token
  | .trouble _ => none

/-- The line to show: the one the fault names, else that of the innermost visit. -/
def line? (error : Error) : Option Statement :=
  match error.failure with
  | .fault { line := some line, .. } => some line
  | _ => error.trail.head?.map fun visit => visit.node.head

/-- Message and trace, a line feed after each line. -/
def preamble (error : Error) : Text :=
  error.message ++ "\n" ++
    match error.context with
    | none => []
    | some _ => Text.unlines (" === COMPILER STACK TRACE ===" :: error.trace.map (Text.ofString "  " ++ ·))

/-- Spaces up to the blamed word, then a mark under each of its bytes. -/
def underline (margin : Nat) (token : Token) : Text :=
  List.replicate ((margin : Int) + token.column).toNat 32 ++
    List.replicate (max token.width 1) (Byte.ofChar '^')

/-- The full report: message, trace, the line, and marks under the blamed word when it stands
on that line. -/
def report (error : Error) : Text :=
  match error.line? with
  | none => Text.dropRight (· == 10) error.preamble
  | some line =>
    if line.line ≤ 0 then Text.dropRight (· == 10) error.preamble
    else
      let margin := Number.int line.line ++ ": "
      let shown := error.preamble ++ " === LINE ===\n" ++ margin ++ line.source
      match error.token? with
      | none => shown
      | some token =>
        if token.line = line.line then shown ++ "\n" ++ underline margin.length token else shown

end Error

end Tapestry

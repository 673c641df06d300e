import Tapestry.Expansion.Step

/-!
# Expanding a program

The expressions of a unit are visited in order, and the body a visit leads to is visited
before the next expression. A scope entered for a body is left behind it; a unit runs in the
environment of the statement that asked for it.

The depth of visits is limited. The limit is the number of levels that may still be entered,
so the expansion ends whatever the templates do.
-/

namespace Tapestry.Expansion

/-- How far an expansion came. The state is kept also where it stopped. -/
inductive Progress where
  | ready (state : State)
  | stopped (state : State) (error : Error)

namespace Progress

/-- Go on from a state that is ready. -/
def andThen : Progress → (State → Progress) → Progress
  | ready state, next => next state
  | stopped state error, _ => stopped state error

/-- Change a state that is ready. -/
def mapReady (f : State → State) : Progress → Progress
  | ready state => ready (f state)
  | stopped state error => stopped state error

/-- Note the place of an error that comes out. -/
def noteAt (chain : List Visit) : Progress → Progress
  | ready state => ready state
  | stopped state error => stopped state (error.noteAt chain)

end Progress

namespace State

/-- Note a visit that has begun. -/
def record (state : State) (visit : Visit) : State := { state with visits := visit :: state.visits }

/-- Enter a scope. -/
def enter (state : State) (scope : Scope) : State := { state with env := .nested scope state.env }

/-- Leave the innermost scope. -/
def leave (state : State) : State := { state with env := state.env.outer }

/-- Begin a unit. -/
def beginUnit (state : State) (name : Text) : State :=
  { state with imports := state.imports ++ [name], files := state.files ++ [name] }

/-- End the unit begun last. -/
def endUnit (state : State) : State := { state with imports := state.imports.dropLast }

end State

/-- Where units come from, and how deep visits may nest. -/
structure Setup where
  loader : Loader
  limit : Nat

/-- Complaint about visits nested too deep. -/
def tooDeep (limit : Nat) (node : Node) : Fault :=
  .blame .recursionLimit node.callee ("expansion nested deeper than " ++ Number.nat limit)

/-- Visit expressions in order, up to the first that stops. -/
def visitAll (visit : Node → State → Progress) : List Node → State → Progress
  | [], state => .ready state
  | node :: rest, state => (visit node state).andThen (visitAll visit rest)

/-- Stop at a visit for a fault. -/
def failAt (trail : List Visit) (state : State) (visit : Visit) (fault : Fault) : Progress :=
  .stopped (state.record visit) ((Error.ofFailure (.fault fault)).noteAt (visit :: trail))

/-- Visit an expression and everything below it. `levels` more levels may be entered, `trail`
are the visits around it, and `file` is the unit it was written in. The statement that asks for a
unit notes the place of every error that comes out of it. -/
def visit (setup : Setup) : (levels : Nat) → (trail : List Visit) → (file : Text) → Node → State → Progress
  | 0, trail, file, node, state =>
    failAt trail state (.start trail node file state.env) (tooDeep setup.limit node)
  | levels + 1, trail, file, node, state =>
    match step setup.loader state (.start trail node file state.env) with
    | .fail record fault => failAt trail state record fault
    | .done record env => .ready { state.record record with env }
    | .enter record scope body origin =>
      (visitAll (visit setup levels (record :: trail) origin) body
        ((state.record record).enter scope)).mapReady State.leave
    | .unit record name body =>
      ((visitAll (visit setup levels (record :: trail) name) body
        ((state.record record).beginUnit name)).mapReady State.endUnit).noteAt (record :: trail)

/-- The state before the first expression of a program. -/
def State.initial (name : Text) (body : List Node) : State :=
  { env := .root .initial, imports := [name], files := [name], visits := [.root name body] }

/-- Expand the top-level expressions of a program. -/
def run (setup : Setup) (name : Text) (body : List Node) : Progress :=
  visitAll (visit setup setup.limit [] name) body (State.initial name body)

end Tapestry.Expansion

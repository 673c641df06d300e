import Tapestry.Expansion.Run
import Tapestry.Source.Nesting

/-!
# Builds

A successful expansion gives a build: every visit in pre-order, the units that were read, and
the root scope. The program is the instructions of the visits in order, and every instruction
comes from the place of the visit that emitted it.

How deep visits may nest is limited or not. Without a limit, an expansion that nests without end has
no result.
-/

namespace Tapestry

/-- A successful expansion. -/
structure Build where
  /-- Every visit in pre-order; the first is the root. -/
  visits : List Visit
  /-- Every unit read, in the order of first reading. -/
  files : List Text
  /-- The root scope after the last statement. -/
  scope : Scope

namespace Build

/-- The program. -/
def code (build : Build) : List Instruction := build.visits.flatMap Visit.code

/-- Where each instruction comes from. -/
def locations (build : Build) : List Location := build.visits.flatMap Visit.locations

/-- The visits as an indented listing. -/
def dump (build : Build) : Text :=
  Text.dropRight (· == 10) (Text.unlines (build.visits.flatMap Visit.dumpLines))

/-- The name of the main unit. -/
def mainFile (build : Build) : Text := build.files.headD []

end Build

namespace Expansion

/-- How deep visits may nest unless said otherwise. -/
def defaultDepth : Nat := 512

/-- Whether an expansion stopped because visits nested too deep. -/
def Progress.isCutOff : Progress → Bool
  | .stopped _ ⟨.fault fault, _⟩ => fault.kind == .recursionLimit
  | _ => false

/-- Visit expressions of a unit without a limit: as under the first of growing limits that does not
cut them off. If every limit does, this never comes to an end. -/
def State.visitUnlimited (loader : Loader) (limit : Nat) (name : Text) (body : List Node)
    (state : State) : Option Progress :=
  let progress := visitAll (visit ⟨loader, limit⟩ limit [] name) body state
  if progress.isCutOff then state |>.visitUnlimited loader (2 * limit + 1) name body else some progress
partial_fixpoint

/-- The build of an expansion that came to its end. -/
def Progress.build : Progress → Except Error Build
  | .ready state =>
    .ok { visits := state.visits.reverse, files := state.files, scope := state.env.rootScope }
  | .stopped _ error => .error error

end Expansion

namespace Expansion.Setup

/-- Expand a parsed unit under a name. -/
def buildBody (setup : Setup) (name : Text) (body : List Node) : Except Error Build :=
  (run setup name body).build

/-- Parse and expand a source text under a name. -/
def build (setup : Setup) (name source : Text) : Except Error Build :=
  match Source.parse source with
  | .error failure => .error (.ofFailure failure)
  | .ok body => setup.buildBody name body

end Expansion.Setup

/-- How to expand programs: where units come from, and how deep visits may nest. -/
structure Compiler where
  loader : Loader
  /-- Only a positive number limits the depth. -/
  maxDepth : Int := Expansion.defaultDepth

namespace Compiler

/-- How deep visits may nest, if they are limited. -/
def limit? (compiler : Compiler) : Option Nat :=
  if 0 < compiler.maxDepth then some compiler.maxDepth.toNat else none

/-- Visit the expressions of a unit from a state on. Without a limit this may never come to an end. -/
def expand (compiler : Compiler) (name : Text) (body : List Node) (state : Expansion.State) :
    Option Expansion.Progress :=
  match compiler.limit? with
  | some limit =>
    some (Expansion.visitAll (Expansion.visit ⟨compiler.loader, limit⟩ limit [] name) body state)
  | none => state.visitUnlimited compiler.loader Expansion.defaultDepth name body

/-- Expand a parsed unit under a name. -/
def buildBody (compiler : Compiler) (name : Text) (body : List Node) : Option (Except Error Build) :=
  (compiler.expand name body (.initial name body)).map Expansion.Progress.build

/-- Parse and expand a source text under a name. -/
def build (compiler : Compiler) (name source : Text) : Option (Except Error Build) :=
  match Source.parse source with
  | .error failure => some (.error (.ofFailure failure))
  | .ok body => compiler.buildBody name body

end Compiler

end Tapestry

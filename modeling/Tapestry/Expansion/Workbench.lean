import Tapestry.Expansion.Build

/-!
# Compilers at work

A compiler may expand one program after another. While it works it keeps two lists: the units being
expanded, to notice one that asks for itself, and the units read so far. Both are begun anew for
every tree, and a source that cannot be parsed leaves them as they are. Where an expansion stops,
the units around the stop are ended from the innermost outward, and the units read stay listed.
-/

namespace Tapestry

namespace Expansion

/-- The units still being expanded when the visits that were expanding some have given up, from the
innermost outward. -/
def endUnits (imports : List Text) : List Visit → List Text
  | [] => imports
  | visit :: outer => endUnits (if visit.asksForUnit then imports.dropLast else imports) outer

/-- The units that an expansion leaves listed as being expanded. The visit that fails has begun none. -/
def Progress.leftImports : Progress → List Text
  | .ready state => state.imports
  | .stopped state error => endUnits state.imports error.trail.tail

/-- The units that an expansion leaves listed as read. -/
def Progress.leftFiles : Progress → List Text
  | .ready state | .stopped state _ => state.files

end Expansion

/-- A compiler with the lists it keeps. -/
structure Workbench where
  compiler : Compiler
  /-- The units being expanded, outermost first. -/
  imports : List Text := []
  /-- The units read so far. -/
  files : List Text := []

namespace Workbench

/-- What a compiler can be asked for. -/
inductive Task where
  /-- Expand a parsed unit under a name. -/
  | tree (name : Text) (body : List Node)
  /-- Parse and expand a source text under a name. -/
  | source (name text : Text)

/-- Expand a parsed unit with the lists as they are. -/
def expand (bench : Workbench) (name : Text) (body : List Node) : Option Expansion.Progress :=
  bench.compiler.expand name body
    { env := .root .initial, imports := bench.imports, files := bench.files
      visits := [.root name body] }

/-- Begin the lists anew and expand a parsed unit. -/
def buildBody (bench : Workbench) (name : Text) (body : List Node) :
    Option (Except Error Build × Workbench) := do
  let progress ← { bench with imports := [name], files := [name] }.expand name body
  return (progress.build, { bench with imports := progress.leftImports, files := progress.leftFiles })

/-- Carry out a task, if it comes to an end. -/
def perform (bench : Workbench) : Task → Option (Except Error Build × Workbench)
  | .tree name body => bench.buildBody name body
  | .source name text =>
    match Source.parse text with
    | .error failure => some (.error (.ofFailure failure), bench)
    | .ok body => bench.buildBody name body

/-- Carry out tasks one after another, if they all come to an end. -/
def performAll (bench : Workbench) : List Task → Option (List (Except Error Build) × Workbench)
  | [] => some ([], bench)
  | task :: rest => do
    let (result, after) ← bench.perform task
    let (results, last) ← after.performAll rest
    return (result :: results, last)

end Workbench

end Tapestry

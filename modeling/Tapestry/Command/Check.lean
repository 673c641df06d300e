import Tapestry.Command.Outcome
import Tapestry.Fixture
import Tapestry.Manifest

/-!
# Checking fixtures

One command runs fixtures: the files it is given, and the source files below the directories it
is given. Files in a directory named `lib` are libraries and not fixtures.
-/

namespace Tapestry.Command

/-- How to use the command. -/
def checkUsage : Text := "Usage: brc test [-v] [file.br | dir]...\n"

/-- What a source file ends in. -/
def sourceExtension : Text := ".br"

/-- The directories that hold libraries. -/
def libraryName : Text := "lib"

mutual

/-- The source files below a directory, outside libraries, each directory in order of names. -/
def sourcesBelow (disk : Disk) : (fuel : Nat) → (path : Text) → Place → List Text
  | 0, _, _ => []
  | fuel + 1, path, place =>
    if Path.base path == libraryName then [] else sourcesAmong disk fuel path place (disk.names place)

/-- The source files among names in a directory and below them. -/
def sourcesAmong (disk : Disk) : (fuel : Nat) → (path : Text) → Place → List Text → List Text
  | 0, _, _, _ => []
  | _, _, _, [] => []
  | fuel + 1, path, place, name :: rest =>
    let child := Path.join path name
    let here :=
      match disk.entry? (place ++ [name]) with
      | some .directory => sourcesBelow disk fuel child (place ++ [name])
      | some (.file _) => if Path.extension child == sourceExtension then [child] else []
      | none => []
    here ++ sourcesAmong disk fuel path place rest

end

/-- The fixtures that paths stand for. -/
def fixturesIn (disk : Disk) : List Text → Except FileFault (List Text)
  | [] => .ok []
  | path :: rest => do
    let here ←
      match disk.find path, disk.locate path with
      | .ok .directory, .ok place => .ok (sourcesBelow disk (2 * disk.entries.length + 2) path place)
      | .ok _, _ => .ok [path]
      | .error problem, _ => .error (FileFault.mk "stat" path problem)
    return here ++ (← fixturesIn disk rest)

/-- Run the fixture in a file: what it says about itself, or what is wrong with it. -/
def checkFile (disk : Disk) (options : BuildOptions) (path : Text) : Except Text Text :=
  match Fixture.load disk path with
  | .error fault => .error fault.message
  | .ok fixture =>
    match fixture.run disk options with
    | some mismatch => .error mismatch
    | none => .ok fixture.description

/-- The lines about one fixture. -/
def checkLines (verbose : Bool) (path : Text) : Except Text Text → Text
  | .error message => Text.ofString "FAIL  " ++ path ++ "\n      " ++ message ++ "\n"
  | .ok description =>
    Text.ofString "ok    " ++ path ++ "\n" ++
      if verbose && !description.isEmpty then
        Text.ofString "      " ++ Text.replaceByte 10 "\n      " description ++ "\n"
      else []

/-- Run fixtures and sum up. -/
def checkFiles (disk : Disk) (options : BuildOptions) (verbose : Bool) (files : List Text) : Outcome :=
  let results := files.map fun path => (path, checkFile disk options path)
  let failed := results.countP fun (_, result) => !result.toBool
  let passed := results.length - failed
  { disk
    exit := if failed = 0 then 0 else 1
    printed := (results.flatMap fun (path, result) => checkLines verbose path result) ++
      Number.nat passed ++ " passed, " ++ Number.nat failed ++ " failed\n" }

/-- Where the project of the fixtures is sought. -/
def checkStart (disk : Disk) : List Text → Text
  | [] => "."
  | path :: _ => if disk.isFile path then Path.directory path else path

/-- Run fixtures as a command line says. -/
def check [Manifest.Decoder] (disk : Disk) (args : List Text) : Outcome :=
  let isSwitch (word : Text) : Bool := word == "-v" || word == "--verbose"
  let verbose := args.any isSwitch
  let paths := args.filter (!isSwitch ·)
  match Manifest.find disk (checkStart disk paths) with
  | .error fault =>
    Outcome.complain { disk } 1 (Text.ofString "Error loading manifest: " ++ fault.message ++ "\n")
  | .ok manifest =>
    let paths := if paths.isEmpty then manifest.toList.map Manifest.directory else paths
    if paths.isEmpty then Outcome.complain { disk } 2 checkUsage
    else
      match fixturesIn disk paths with
      | .error fault => Outcome.fail { disk } fault.message
      | .ok files => checkFiles disk (manifest.elim {} Manifest.buildOptions) verbose files

end Tapestry.Command

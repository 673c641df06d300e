import Tapestry.File.Disk
import Tapestry.Machine

/-!
# Project files

A project file names the main unit of a project, where imported units are sought, how programs
are expanded and run, and where results go. It is found in the directory a search starts from or
in the nearest one above it. Paths in it are relative to its own directory.

How the text of a project file is decoded is left open: everything here works with any decoder.
-/

namespace Tapestry

/-- What a project file says, with defaults for what it leaves out. -/
structure Manifest where
  name : Text
  version : Text
  /-- Where imported units are sought. -/
  sources : List Text
  /-- The main unit. -/
  entry : Text
  maxDepth : Int
  /-- The name of the end-of-input policy, as it is written. -/
  eof : Text
  policy : EofPolicy
  /-- The steps a program may take; 0 for any number. -/
  maxSteps : Int
  output : Text
  image : Text
  cache : Text
  /-- The directory of the project file. -/
  directory : Text
  deriving DecidableEq, Repr

/-- What a decoder finds in a project file: an empty text, zero or no texts for what is left out. -/
structure Settings where
  name : Text
  version : Text
  sources : List Text
  entry : Text
  maxDepth : Int
  eof : Text
  maxSteps : Int
  output : Text
  image : Text
  cache : Text
  deriving DecidableEq, Repr

/-- A decoder of project files. It gives the settings of a text and the keys that stand for none of
them, in their order and as it writes keys, or it says what is wrong with the text. -/
class Manifest.Decoder where
  decode : Text → Except Text (Settings × List Text)

/-- Why there is no project to work with. -/
inductive ManifestFault where
  /-- The text is not well formed, or a key has a value of the wrong type. -/
  | malformed (complaint : Text)
  | unknownKey (key : Text)
  | negativeDepth (depth : Int)
  | negativeSteps (steps : Int)
  | policy (complaint : Text)
  | unreadable (path : Text) (fault : FileFault)
  /-- A fault in the file at a path. -/
  | inFile (path : Text) (fault : ManifestFault)

namespace ManifestFault

/-- What the fault says. -/
def message : ManifestFault → Text
  | malformed complaint => complaint
  | unknownKey key => "unknown key " ++ key
  | negativeDepth depth => "compiler.max-depth must be positive, got " ++ Number.int depth
  | negativeSteps steps => "vm.max-steps must not be negative, got " ++ Number.int steps
  | policy complaint => "vm.eof: " ++ complaint
  | unreadable path fault => "cannot read " ++ path ++ ": " ++ fault.message
  | inFile path fault => "parse error in " ++ path ++ ": " ++ fault.message

/-- Whether the text itself is at fault. -/
def isMalformed : ManifestFault → Bool
  | malformed _ => true
  | inFile _ fault => fault.isMalformed
  | _ => false

end ManifestFault

namespace Manifest

/-- The name of a project file. -/
def fileName : Text := "brain.toml"

/-- A text, or another in place of an empty one. -/
def orElse (t other : Text) : Text := if t.isEmpty then other else t

/-- Settings with defaults for what they leave out, before any check. -/
def ofSettings (settings : Settings) : Manifest :=
  { name := settings.name
    version := settings.version
    sources := if settings.sources.isEmpty then ["src"] else settings.sources
    entry := orElse settings.entry "main.br"
    maxDepth := if settings.maxDepth = 0 then Expansion.defaultDepth else settings.maxDepth
    eof := orElse settings.eof EofPolicy.halt.name
    policy := .halt
    maxSteps := settings.maxSteps
    output := settings.output
    image := settings.image
    cache := settings.cache
    directory := [] }

/-- Check the limits and the policy. -/
def check (manifest : Manifest) : Except ManifestFault Manifest :=
  if manifest.maxDepth < 0 then .error (.negativeDepth manifest.maxDepth)
  else if manifest.maxSteps < 0 then .error (.negativeSteps manifest.maxSteps)
  else
    match EofPolicy.read manifest.eof with
    | .error complaint => .error (.policy complaint)
    | .ok policy => .ok { manifest with policy }

section Reading

variable [Decoder]

/-- Read a project file that stands in no directory. -/
def parse (t : Text) : Except ManifestFault Manifest :=
  match Decoder.decode t with
  | .error complaint => .error (.malformed complaint)
  | .ok (_, key :: _) => .error (.unknownKey key)
  | .ok (settings, []) => (ofSettings settings).check

/-- Read the project file of a directory. -/
def load (disk : Disk) (directory : Text) : Except ManifestFault Manifest :=
  let path := Path.join directory fileName
  match disk.read path with
  | .error fault => .error (.unreadable path fault)
  | .ok contents =>
    match parse contents with
    | .error fault => .error (.inFile path fault)
    | .ok manifest => .ok { manifest with directory := disk.absolute directory }

/-- The directories from a place up to the root. -/
def upward (place : Place) : List Text := (([] :: Place.steps place).map Place.path).reverse

/-- Read the project file of a directory or of the nearest one above it that has one. -/
def find (disk : Disk) (start : Text) : Except ManifestFault (Option Manifest) :=
  let directories := upward (disk.placeOf start)
  match directories.find? fun directory => (disk.find (Path.join directory fileName)).toOption.isSome with
  | some directory => (load disk directory).map some
  | none => .ok none

end Reading

/-! ## Paths -/

/-- A path of the project file, seen from its directory. -/
def path (manifest : Manifest) (path : Text) : Text :=
  if Path.isAbsolute path then path else Path.join manifest.directory path

/-- A path that may be left out. -/
def optionalPath (manifest : Manifest) (path : Text) : Text :=
  if path.isEmpty then [] else manifest.path path

/-- Where imported units are sought. -/
def sourcePaths (manifest : Manifest) : List Text := manifest.sources.map manifest.path

/-- The main unit, sought in the directory of the project file and then among the sources. -/
def entryPath (manifest : Manifest) (disk : Disk) : Text :=
  let direct := manifest.path manifest.entry
  let others := manifest.sourcePaths.map (Path.join · manifest.entry)
  ((direct :: others).find? fun path => (disk.find path).toOption.isSome).getD direct

/-- Where the program text goes; empty for nowhere. -/
def outputPath (manifest : Manifest) : Text := manifest.optionalPath manifest.output

/-- Where the image goes; empty for nowhere. -/
def imagePath (manifest : Manifest) : Text := manifest.optionalPath manifest.image

/-- Where builds are kept; empty for nowhere. -/
def cachePath (manifest : Manifest) : Text := manifest.optionalPath manifest.cache

/-- How programs of the project are built. -/
def buildOptions (manifest : Manifest) : BuildOptions :=
  { search := manifest.sourcePaths, maxDepth := manifest.maxDepth.toNat }

/-- How programs of the project are run on an input. -/
def machineOptions (manifest : Manifest) (input : Text) : MachineOptions :=
  { input := { bytes := input }, policy := manifest.policy, limit := manifest.maxSteps.toNat }

end Manifest

end Tapestry

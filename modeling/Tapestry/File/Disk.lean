import Tapestry.Expansion.Build
import Tapestry.File.Path

/-!
# Disks

A disk is a tree of files and directories seen from a working directory. A place on it is the
list of names from the root down. Following a path walks from place to place: every element
but the last has to lead to a directory, and `..` leads to the place above.

Units are sought next to the unit that asks for them, then in each directory of a search list.
-/

namespace Tapestry

/-- Names from the root down. -/
abbrev Place := List Text

/-- The absolute path of a place. -/
def Place.path (place : Place) : Text := Path.slash :: Text.join "/" place

/-- The places on the way down from the root, the place itself last. -/
def Place.steps : Place → List Place
  | [] => []
  | name :: rest => [name] :: (Place.steps rest).map (name :: ·)

/-- What stands at a place. -/
inductive DiskEntry where
  | file (contents : Text)
  | directory
  deriving DecidableEq, Repr

/-- Files and directories by place, and the place that relative paths start from. -/
structure Disk where
  entries : List (Place × DiskEntry)
  working : Place

namespace Disk

/-- What stands at a place; the root is always a directory. -/
def entry? (disk : Disk) (place : Place) : Option DiskEntry :=
  if place.isEmpty then some .directory else disk.entries.lookup place

/-- Go down or up by one path element. Only a directory can be left. -/
def follow (disk : Disk) (place : Place) (element : Text) : Except FileProblem Place :=
  match disk.entry? place with
  | none => .error .missing
  | some (.file _) => .error .notDirectory
  | some .directory =>
    if element = Text.ofString "." then .ok place
    else if element = Text.ofString ".." then .ok place.dropLast
    else .ok (place ++ [element])

/-- The place a path leads to. What it names need not exist, unless a slash ends the path. -/
def locate (disk : Disk) (path : Text) : Except FileProblem Place :=
  if path.isEmpty then .error .missing
  else do
    let start := if Path.isAbsolute path then [] else disk.working
    let place ← (Path.elements path).foldlM disk.follow start
    if path.getLast? = some Path.slash then disk.follow place "." else .ok place

/-- What a path leads to. -/
def find (disk : Disk) (path : Text) : Except FileProblem DiskEntry := do
  match disk.entry? (← disk.locate path) with
  | some entry => .ok entry
  | none => .error .missing

/-- Whether a path leads to a file. -/
def isFile (disk : Disk) (path : Text) : Bool :=
  match disk.find path with
  | .ok (.file _) => true
  | _ => false

/-- The contents of the file a path leads to. A directory can be opened but not read. -/
def read (disk : Disk) (path : Text) : Except FileFault Text :=
  match disk.find path with
  | .error problem => .error ⟨"open", path, problem⟩
  | .ok .directory => .error ⟨"read", path, .isDirectory⟩
  | .ok (.file contents) => .ok contents

/-- The absolute form of a path, by its text alone. -/
def absolute (disk : Disk) (path : Text) : Text := Path.absolute disk.working.path path

/-- The names directly below a place, in order. -/
def names (disk : Disk) (place : Place) : List Text :=
  Text.sort (disk.entries.filterMap fun (other, _) =>
    match other.getLast? with
    | some name => if other.dropLast = place then some name else none
    | none => none)

/-! ## Changes -/

/-- Put an entry at a place, over what stood there. -/
def insert (disk : Disk) (place : Place) (entry : DiskEntry) : Disk :=
  { disk with entries := (place, entry) :: disk.entries.filter (·.1 != place) }

/-- Make a directory at a place unless something stands there. -/
def ensureDirectory (disk : Disk) (place : Place) : Disk :=
  if (disk.entry? place).isSome then disk else disk.insert place .directory

/-- Put an entry at a place and make the directories above it. -/
def plant (disk : Disk) (place : Place) (entry : DiskEntry) : Disk :=
  ((Place.steps place.dropLast).foldl ensureDirectory disk).insert place entry

/-- The place a path names by its text alone. -/
def placeOf (disk : Disk) (path : Text) : Place := Path.elements (disk.absolute path)

/-- Put files on a disk; a path that ends in a slash makes a directory. -/
def plantAll (disk : Disk) (files : List (Text × Text)) : Disk :=
  files.foldl (fun disk (path, contents) =>
    if path.getLast? = some Path.slash then
      (Place.steps (disk.placeOf path)).foldl ensureDirectory disk
    else disk.plant (disk.placeOf path) (.file contents)) disk

/-- A disk with an empty working directory. -/
def empty (working : Place) : Disk := (Place.steps working).foldl ensureDirectory ⟨[], working⟩

/-- Remove a place and everything below it. -/
def remove (disk : Disk) (place : Place) : Disk :=
  { disk with entries := disk.entries.filter fun (other, _) => !place.isPrefixOf other }

/-- Write a file where a path leads. -/
def write (disk : Disk) (path contents : Text) : Except FileFault Disk :=
  let refuse (problem : FileProblem) := Except.error (FileFault.mk "open" path problem)
  match disk.locate path with
  | .error problem => refuse problem
  | .ok place =>
    match disk.entry? place with
    | some .directory => refuse .isDirectory
    | _ => .ok (disk.insert place (.file contents))

/-- The paths to the directories on the way of a cleaned path, shortest first. -/
def ancestors (path : Text) : List Text :=
  let root : Text := if Path.isAbsolute path then [Path.slash] else []
  (Place.steps (Path.elements path)).map fun elements => root ++ Text.join "/" elements

/-- Make a directory and those above it. The first file in the way is to blame. -/
def makeDirectories (disk : Disk) (path : Text) : Except FileFault Disk :=
  (ancestors path).foldlM (fun disk step =>
    match disk.locate step with
    | .error problem => .error ⟨"mkdir", step, problem⟩
    | .ok place =>
      match disk.entry? place with
      | some (.file _) => .error ⟨"mkdir", step, .notDirectory⟩
      | _ => .ok (disk.ensureDirectory place)) disk

/-! ## Source units -/

/-- Read and parse the file a path leads to. -/
def parse (disk : Disk) (path : Text) : Except Failure (List Node) :=
  match disk.read path with
  | .error fault => .error (.trouble (.file fault))
  | .ok contents => Source.parse contents

/-- The paths a target may stand for, in the order they are tried. -/
def candidates (search : List Text) (target origin : Text) : List Text :=
  if Path.isAbsolute target then [target]
  else
    let near := if origin.isEmpty then target else Path.join (Path.directory origin) target
    near :: search.map fun directory => Path.join directory target

/-- The unit under the first candidate that is a file. -/
def loader (disk : Disk) (search : List Text) : Loader := fun target origin =>
  match (candidates search target origin).find? disk.isFile with
  | some path => { name := disk.absolute path, content := disk.parse path }
  | none => { name := [], content := .error (.trouble (.unitNotFound target)) }

end Disk

/-- Where units are sought besides next to each other, and how deep visits may nest. -/
structure BuildOptions where
  search : List Text := []
  /-- Never 0: programs on a disk are always expanded under a limit. -/
  maxDepth : Nat := Expansion.defaultDepth

namespace Disk

/-- Expansion with units that are sought on the disk. -/
def setup (disk : Disk) (options : BuildOptions) : Expansion.Setup :=
  { loader := disk.loader options.search, limit := options.maxDepth }

/-- Expand the file a path leads to. -/
def build (disk : Disk) (options : BuildOptions) (path : Text) : Except Error Build :=
  match disk.read path with
  | .error fault => .error (.ofFailure (.trouble (.file fault)))
  | .ok contents => (disk.setup options).build (disk.absolute path) contents

end Disk

/-- Expand the file a path leads to, with whatever limit there is. -/
def Compiler.buildFile (compiler : Compiler) (disk : Disk) (path : Text) : Option (Except Error Build) :=
  match disk.read path with
  | .error fault => some (.error (.ofFailure (.trouble (.file fault))))
  | .ok contents => compiler.build (disk.absolute path) contents

end Tapestry

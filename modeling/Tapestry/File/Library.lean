import Tapestry.Expansion.Step
import Tapestry.Source.Nesting
import Tapestry.File.Path

/-!
# Libraries

A library is a tree of source files held in memory. Names in it are relative paths in their
shortest form. A unit is sought next to the unit that asks for it, then from the top.
-/

namespace Tapestry

/-- Files by name. -/
structure Library where
  files : List (Text × Text)

namespace Library

/-- What a name leads to. -/
inductive Entry where
  | file (contents : Text)
  | directory
  deriving DecidableEq, Repr

/-- A name that may be opened: elements between single slashes, none of them `.` or `..`. -/
def isName (name : Text) : Bool :=
  Utf8.valid name &&
    (name == "." || (name.splitOn Path.slash).all fun element =>
      !element.isEmpty && element != "." && element != "..")

/-- Whether some file lies below a name. -/
def hasBelow (library : Library) (name : Text) : Bool :=
  library.files.any fun (path, _) => (name ++ [Path.slash]).isPrefixOf path

/-- Open a name. Directories exist as far as files lie in them. -/
def find? (library : Library) (name : Text) : Option Entry :=
  if !isName name then none
  else
    match library.files.lookup name with
    | some contents => some (.file contents)
    | none => if name == "." || library.hasBelow name then some .directory else none

/-- Parse what a name leads to. A directory cannot be read. -/
def Entry.parse (name : Text) : Entry → Except Failure (List Node)
  | file contents => Source.parse contents
  | directory => .error (.trouble (.file ⟨"read", name, .invalidArgument⟩))

/-- The names a target may stand for, in the order they are tried. -/
def candidates (target origin : Text) : List Text :=
  let rooted := Path.isAbsolute target
  let top := if rooted then target.drop 1 else target
  if !origin.isEmpty && !rooted then [Path.join (Path.directory origin) target, top] else [top]

/-- The unit under the first candidate that can be opened. -/
def loader (library : Library) : Loader := fun target origin =>
  let found := (candidates target origin).findSome? fun name =>
    (library.find? name).map fun entry => (name, entry)
  match found with
  | some (name, entry) => { name, content := entry.parse name }
  | none => { name := [], content := .error (.trouble (.unitNotFound target)) }

end Library

end Tapestry

import Tapestry.Cache

/-!
# The tables of the cache

The rows of the two tables, and what each statement does to them by the rules of relational
databases. A row for an image takes the place of the one with its key, and a row for a file is
refused if there is one with its key. A transaction remembers the rows at its start.
-/

namespace Tapestry

/-- A row of the table of files. -/
structure FileRow where
  /-- The name of the image that was built from the file. -/
  name : Text
  dependency : Dependency
  deriving DecidableEq, Repr

/-- The rows of the two tables. -/
structure Tables where
  images : List ImageRow
  files : List FileRow
  deriving DecidableEq, Repr

namespace Tables

/-- Tables without rows. -/
def empty : Tables := ⟨[], []⟩

/-- The image under a name. -/
def find? (tables : Tables) (name : Text) : Option ImageRow := tables.images.find? (·.name == name)

/-- The files under a name. -/
def filesOf (tables : Tables) (name : Text) : List Dependency :=
  (tables.files.filter (·.name == name)).map FileRow.dependency

/-- The files under a name, in order. -/
def dependenciesOf (tables : Tables) (name : Text) : List Dependency :=
  (tables.filesOf name).mergeSort fun a b => Text.atMost a.file b.file

/-- The images in the order of their names. -/
def ordered (tables : Tables) : List ImageRow :=
  tables.images.mergeSort fun a b => Text.atMost a.name b.name

/-- The tables without the image under a name. -/
def dropImage (tables : Tables) (name : Text) : Tables :=
  { tables with images := tables.images.filter (·.name != name) }

/-- The tables without the files under a name. -/
def dropFiles (tables : Tables) (name : Text) : Tables :=
  { tables with files := tables.files.filter (·.name != name) }

/-- Put an image in place of the one with its name. -/
def saveImage (tables : Tables) (row : ImageRow) : Tables :=
  let others := tables.dropImage row.name
  { others with images := row :: others.images }

/-- Add a file under a name, unless it is there already. -/
def saveFile? (tables : Tables) (name : Text) (dependency : Dependency) : Option Tables :=
  if tables.files.any fun row => row.name == name && row.dependency.file == dependency.file then none
  else some { tables with files := ⟨name, dependency⟩ :: tables.files }

end Tables

/-- What a list of the images says about a row. -/
def ImageRow.summary (row : ImageRow) : ImageSummary :=
  { name := row.name, buildId := row.buildId, created := row.created, size := row.bytes.length }

/-- The rows that statements work on, and those at the start of the transaction if there is one. -/
structure Database.View where
  rows : Tables
  before : Option Tables
  deriving DecidableEq, Repr

/-- The rows that last: those at the start of a transaction until it is committed. -/
def Database.View.lasting (view : View) : Tables := view.before.getD view.rows

namespace Database.Statement

/-- What a statement does to the rows; nothing if it is refused. -/
def effect? (view : View) : Statement → Option View
  | setTimeout | createImages | createFiles => some view
  | start => if view.before.isSome then none else some { view with before := some view.rows }
  | commit => if view.before.isSome then some { view with before := none } else none
  | rollback => view.before.map fun rows => { rows, before := none }
  | saveImage row => some { view with rows := view.rows.saveImage row }
  | saveFile name dependency =>
    (view.rows.saveFile? name dependency).map fun rows => { view with rows }
  | dropImage name => some { view with rows := view.rows.dropImage name }
  | dropFiles name => some { view with rows := view.rows.dropFiles name }

end Database.Statement

end Tapestry

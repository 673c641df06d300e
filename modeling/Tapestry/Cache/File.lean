import Tapestry.Cache.Tables
import Tapestry.Image.Cbor

/-!
# Databases in files

The database that the program runs with. A database is stored in a file of its own. A missing or empty
file stores empty tables. Every change is written to the file when it is to last. The file is the one
its path names by the text alone.

Stored numbers, texts and lists of any size say where they end, so that what was stored is read
back as it was.
-/

namespace Tapestry

namespace Tables

/-- What a stored database starts with. -/
def header : Text := "brain build cache 1\n"

/-! ## Writing -/

/-- A number as a one for each of its bytes, a zero, and the bytes. -/
def writeNat (n : Nat) : Text :=
  let width := n.log2 / 8 + 1
  List.replicate width 1 ++ 0 :: Number.bigEndian width n

/-- A sign, one if there is a minus, and the number without it. -/
def writeInt (n : Int) : Text := (if n < 0 then 1 else 0) :: writeNat n.natAbs

/-- A text behind its length. -/
def writeText (t : Text) : Text := writeNat t.length ++ t

/-- Items behind their number. -/
def writeList {α : Type} (write : α → Text) (items : List α) : Text :=
  writeNat items.length ++ items.flatMap write

/-- The bytes of a row of the table of images. -/
def writeImageRow (row : ImageRow) : Text :=
  writeText row.name ++ (writeText row.buildId ++ (writeInt row.created ++ writeText row.bytes))

/-- The bytes of a row of the table of files. -/
def writeFileRow (row : FileRow) : Text :=
  writeText row.name ++ (writeText row.dependency.file ++ writeText row.dependency.digest)

/-- The bytes of a stored database. -/
def write (tables : Tables) : Text :=
  header ++ (writeList writeImageRow tables.images ++ writeList writeFileRow tables.files)

/-! ## Reading -/

/-- Read a number. -/
def readNat? : Cbor.Reader Nat := fun bytes =>
  let width := (bytes.takeWhile (· == 1)).length
  match bytes.drop width with
  | 0 :: rest => (Cbor.take? width rest).map fun (digits, rest) => (Number.ofBigEndian digits, rest)
  | _ => none

/-- Read a number with a sign. -/
def readInt? : Cbor.Reader Int
  | [] => none
  | sign :: rest =>
    (readNat? rest).map fun (n, rest) => (if sign = 1 then -(n : Int) else n, rest)

/-- Read a text. -/
def readText? : Cbor.Reader Text := fun bytes => do
  let (length, bytes) ← readNat? bytes
  Cbor.take? length bytes

/-- Read a list of items, each the same way. -/
def readList? {α : Type} (one : Cbor.Reader α) : Cbor.Reader (List α) := fun bytes => do
  let (count, bytes) ← readNat? bytes
  Cbor.many? one count bytes

/-- Read a row of the table of images. -/
def readImageRow? : Cbor.Reader ImageRow := fun bytes => do
  let (name, bytes) ← readText? bytes
  let (buildId, bytes) ← readText? bytes
  let (created, bytes) ← readInt? bytes
  let (image, bytes) ← readText? bytes
  return ({ name, buildId, created, bytes := image }, bytes)

/-- Read a row of the table of files. -/
def readFileRow? : Cbor.Reader FileRow := fun bytes => do
  let (name, bytes) ← readText? bytes
  let (file, bytes) ← readText? bytes
  let (digest, bytes) ← readText? bytes
  return (⟨name, file, digest⟩, bytes)

/-- Read the two tables. -/
def readTables? : Cbor.Reader Tables := fun bytes => do
  let (images, bytes) ← readList? readImageRow? bytes
  let (files, bytes) ← readList? readFileRow? bytes
  return (⟨images, files⟩, bytes)

/-- Read a stored database. -/
def read? (bytes : Text) : Option Tables :=
  if bytes.isEmpty then some empty
  else if header.isPrefixOf bytes then
    match readTables? (bytes.drop header.length) with
    | some (tables, []) => some tables
    | _ => none
  else none

end Tables

/-- A database in use: the place of its file and its rows. -/
structure FileDatabase where
  place : Place
  view : Database.View
  deriving DecidableEq, Repr

namespace FileDatabase

/-- The rows stored at a place. -/
def storedAt (disk : Disk) (place : Place) : Tables :=
  match disk.entry? place with
  | some (.file contents) => (Tables.read? contents).getD .empty
  | _ => .empty

/-- Use the database in the file of a path. Nothing is checked before the first statement. -/
def connect (disk : Disk) (path : Text) : Except Text FileDatabase :=
  let place := disk.placeOf path
  .ok { place, view := { rows := storedAt disk place, before := none } }

/-- Write the rows that last to the file, if there is a directory for it. -/
def save (database : FileDatabase) (disk : Disk) : Disk :=
  if disk.entry? database.place.dropLast = some .directory &&
      disk.entry? database.place != some .directory then
    disk.insert database.place (.file database.view.lasting.write)
  else disk

/-- Why a database cannot be set up: there is a directory in place of the file, or the file is
something else. -/
def setupComplaint? (disk : Disk) (place : Place) (statement : Database.Statement) : Option Text :=
  match statement, disk.entry? place with
  | .setTimeout, some .directory => some "unable to open database file: out of memory (14)"
  | .createImages, some (.file contents) =>
    if (Tables.read? contents).isNone then some "file is not a database (26)" else none
  | _, _ => none

/-- The complaint about a statement that is refused. -/
def refusal : Database.Statement → Text
  | .saveFile _ _ => "constraint failed: UNIQUE constraint failed: deps.name, deps.file (1555)"
  | .start => "cannot start a transaction within a transaction (1)"
  | _ => "cannot end: no transaction is active (1)"

/-- Carry out a statement. -/
def execute (database : FileDatabase) (disk : Disk) (statement : Database.Statement) :
    Except Text Unit × FileDatabase × Disk :=
  match setupComplaint? disk database.place statement with
  | some complaint => (.error complaint, database, disk)
  | none =>
    match statement.effect? database.view with
    | none => (.error (refusal statement), database, disk)
    | some view =>
      let after := { database with view }
      (.ok (), after, if statement = .setTimeout then disk else after.save disk)

instance : Database where
  Connection := FileDatabase
  connect := connect
  execute := execute
  bytesOf database name := .ok ((database.view.rows.find? name).map ImageRow.bytes)
  filesOf database name := .ok (database.view.rows.dependenciesOf name)
  images database := .ok (database.view.rows.ordered.map ImageRow.summary)

end FileDatabase

end Tapestry

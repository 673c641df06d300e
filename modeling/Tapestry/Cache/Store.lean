import Tapestry.Cache

/-!
# Stores

A store is a cache in use. It is opened from the file of a path, sends statements to its database,
and refuses requests once it has been closed. What a request leaves is told whether or not it fails.

An entry is put in by one transaction, which is undone if a statement of it fails. An entry is dropped
by two statements without a transaction.
-/

namespace Tapestry

variable [Database]

/-- A cache in use. -/
structure Store where
  path : Text
  connection : Database.Connection
  isOpen : Bool

namespace Store

/-- The complaint about requests to a closed store. -/
def closedComplaint : Text := "sql: database is closed"

/-- Carry out a statement; what it is to do is named. -/
def execute (store : Store) (disk : Disk) (action : Text) (statement : Database.Statement) :
    Except CacheFault Unit × Store × Disk :=
  if store.isOpen then
    match Database.execute store.connection disk statement with
    | (.ok (), connection, disk) => (.ok (), { store with connection }, disk)
    | (.error complaint, connection, disk) =>
      (.error (.database action complaint), { store with connection }, disk)
  else (.error (.database action closedComplaint), store, disk)

/-- Carry out statements in turn, up to the first that fails. -/
def executeAll (store : Store) (disk : Disk) :
    List (Text × Database.Statement) → Except CacheFault Unit × Store × Disk
  | [] => (.ok (), store, disk)
  | (action, statement) :: rest =>
    match store.execute disk action statement with
    | (.ok (), store, disk) => store.executeAll disk rest
    | failed => failed

/-- Carry out statements in one transaction, which is undone if one of them fails. -/
def transaction (store : Store) (disk : Disk) (script : List (Text × Database.Statement)) :
    Except CacheFault Unit × Store × Disk :=
  match store.execute disk "starting transaction" .start with
  | (.ok (), store, disk) =>
    match store.executeAll disk script with
    | (.ok (), store, disk) => store.execute disk "committing" .commit
    | (.error fault, store, disk) => (.error fault, (store.execute disk "rolling back" .rollback).2)
  | failed => failed

/-- The answer to a query; what it is to do is named. -/
def query {α : Type} (store : Store) (action : Text) (answer : Except Text α) : Except CacheFault α :=
  if store.isOpen then answer.mapError (.database action)
  else .error (.database action closedComplaint)

/-- The statements that set up a database. -/
def setup : List (Text × Database.Statement) :=
  [("setting busy timeout", .setTimeout), ("creating images table", .createImages),
    ("creating deps table", .createFiles)]

/-- Open the cache in the file of a path, and make the file and its directories if need be. -/
def openAt (disk : Disk) (path : Text) : Except CacheFault Store × Disk :=
  match disk.makeDirectories (Path.directory path) with
  | .error fault => (.error (.directory fault), disk)
  | .ok disk =>
    match Database.connect disk path with
    | .error complaint => (.error (.database "opening database" complaint), disk)
    | .ok connection =>
      match executeAll { path, connection, isOpen := true } disk setup with
      | (.ok (), store, disk) => (.ok store, disk)
      | (.error fault, _, disk) => (.error fault, disk)

/-- Close the store. -/
def close (store : Store) : Store := { store with isOpen := false }

/-- The statements that put in an image with its files. -/
def entryScript (row : ImageRow) (found : List Dependency) : List (Text × Database.Statement) :=
  ("saving image", .saveImage row) :: ("clearing deps", .dropFiles row.name) ::
    found.map fun dependency =>
      (Text.ofString "saving dep " ++ dependency.file, .saveFile row.name dependency)

/-- Keep an image under a name with the present digests of files, in place of what was under the name. -/
def put [Image.Codec] (store : Store) (disk : Disk) (name : Text) (image : Image) (files : List Text) :
    Except CacheFault Unit × Store × Disk :=
  match disk.dependencies files with
  | .error fault => (.error fault, store, disk)
  | .ok found =>
    match image.write with
    | .error complaint => (.error (.unwritable complaint), store, disk)
    | .ok bytes =>
      let row : ImageRow := { name, buildId := image.buildId, created := image.created, bytes }
      store.transaction disk (entryScript row found)

/-- The image under a name, if every file it was built from is what it was. -/
def get [Image.Codec] (store : Store) (disk : Disk) (name : Text) : Except CacheFault Image := do
  match ← store.query "querying image" (Database.bytesOf store.connection name) with
  | none => .error .notFound
  | some bytes =>
    let dependencies ← store.query "querying deps" (Database.filesOf store.connection name)
    match dependencies.find? (!disk.isFresh ·) with
    | some dependency => .error (.stale dependency.file)
    | none => (Image.read bytes).mapError .image

/-- Drop the entry under a name. -/
def delete (store : Store) (disk : Disk) (name : Text) : Except CacheFault Unit × Store × Disk :=
  store.executeAll disk [("deleting image", .dropImage name), ("deleting deps", .dropFiles name)]

/-- Every entry in order. -/
def entries (store : Store) : Except CacheFault (List CacheEntry) := do
  let images ← store.query "listing images" (Database.images store.connection)
  images.mapM fun image => do
    let dependencies ← store.query "querying deps" (Database.filesOf store.connection image.name)
    return { image with dependencies }

end Store

end Tapestry

import Tapestry.File.Disk
import Tapestry.Image
import Tapestry.Text.Sha256

/-!
# The build cache

A cache keeps images by the name of their main unit. With each image it keeps the digest of
every file the build read, and an image is given out only while all of them still have the
digests they had.

There is a table of images, with one row for a name, and a table of files, with one row for a
name and a file. The tables are in a database, which is sent statements. The database is left
open: everything here works with any.
-/

namespace Tapestry

/-- A file a build read, and the digest it had. -/
structure Dependency where
  file : Text
  digest : Text
  deriving DecidableEq, Repr

/-- A row of the table of images. -/
structure ImageRow where
  name : Text
  buildId : Text
  created : Int
  /-- The bytes of the image. -/
  bytes : Text
  deriving DecidableEq, Repr

/-- What a list of the images says about one of them. -/
structure ImageSummary where
  name : Text
  buildId : Text
  created : Int
  /-- The number of bytes of the image. -/
  size : Nat
  deriving DecidableEq, Repr

/-- An image in the cache with the files it was built from. -/
structure CacheEntry extends ImageSummary where
  dependencies : List Dependency
  deriving DecidableEq, Repr

/-! ## The database -/

/-- The statements that change a database. -/
inductive Database.Statement where
  /-- Wait for a while if the database is in use. -/
  | setTimeout
  /-- Make the table of images if there is none. The name is its key. -/
  | createImages
  /-- Make the table of files if there is none. The name and the file are its key. -/
  | createFiles
  /-- Start a transaction. -/
  | start
  /-- Make the changes of the transaction last. -/
  | commit
  /-- Undo the changes of the transaction. -/
  | rollback
  /-- Put in an image in place of the one with its name. -/
  | saveImage (row : ImageRow)
  /-- Add a file under a name. -/
  | saveFile (name : Text) (dependency : Dependency)
  /-- Drop the image under a name. -/
  | dropImage (name : Text)
  /-- Drop the files under a name. -/
  | dropFiles (name : Text)
  deriving DecidableEq, Repr

/-- A database that keeps its tables in a file. -/
class Database where
  /-- A database in use. -/
  Connection : Type
  /-- Use the database in the file of a path. -/
  connect : Disk → Text → Except Text Connection
  /-- Carry out a statement. What it leaves is told whether or not it fails. -/
  execute : Connection → Disk → Database.Statement → Except Text Unit × Connection × Disk
  /-- The bytes of the image under a name, if there is one. -/
  bytesOf : Connection → Text → Except Text (Option Text)
  /-- The files under a name, in order. -/
  filesOf : Connection → Text → Except Text (List Dependency)
  /-- The images in the order of their names. -/
  images : Connection → Except Text (List ImageSummary)

/-! ## Faults -/

/-- Why the cache cannot do what it was asked. -/
inductive CacheFault where
  /-- There is no image under the name. -/
  | notFound
  /-- A file is not what it was when the image was built. -/
  | stale (file : Text)
  /-- A file cannot be read. -/
  | unreadable (file : Text) (fault : FileFault)
  /-- The image cannot be written as bytes. -/
  | unwritable (complaint : Text)
  /-- What is kept is no image. -/
  | image (fault : ImageFault)
  /-- The database complains; the request is named by what it was about to do. -/
  | database (action complaint : Text)
  /-- The directory of the cache cannot be made. -/
  | directory (fault : FileFault)
  deriving DecidableEq, Repr

/-- What a cache fault says. -/
def CacheFault.message : CacheFault → Text
  | notFound => "store: no cached image"
  | stale file => "store: cached image is stale: " ++ file ++ " changed"
  | unreadable file fault => "hashing " ++ file ++ ": " ++ fault.message
  | unwritable complaint => "encoding image: " ++ complaint
  | image fault => "decoding image: " ++ fault.message
  | database action complaint => action ++ ": " ++ complaint
  | directory fault => "creating cache dir: " ++ fault.message

/-! ## Digests -/

/-- The digest of a file, in hexadecimal. -/
def Disk.digest (disk : Disk) (file : Text) : Except CacheFault Text :=
  match disk.read file with
  | .error fault => .error (.unreadable file fault)
  | .ok contents => .ok (Number.hexBytes (Sha256.digest contents))

/-- The digests of files, or the first file that cannot be read. -/
def Disk.dependencies (disk : Disk) : List Text → Except CacheFault (List Dependency)
  | [] => .ok []
  | file :: rest => do
    let digest ← disk.digest file
    let others ← disk.dependencies rest
    return ⟨file, digest⟩ :: others

/-- Whether a file is what it was. -/
def Disk.isFresh (disk : Disk) (dependency : Dependency) : Bool :=
  match disk.digest dependency.file with
  | .ok digest => digest == dependency.digest
  | .error _ => false

end Tapestry

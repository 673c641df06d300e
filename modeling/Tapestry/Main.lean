import Std.Time.DateTime.Timestamp
import Tapestry.Cache.File
import Tapestry.Command
import Tapestry.Image.Codec
import Tapestry.Toml.Decoder

/-!
# The program

The program takes a picture of the files that a command line may touch, runs the command on it,
and writes back what has changed. The picture holds everything below the working directory, the
project files above it, and what the words of the command line name.
-/

namespace Tapestry.Program

/-- A text as a string, for names and messages. -/
def stringOf (t : Text) : String := (String.fromUTF8? t.toByteArray).getD ""

/-- Take up the file at a path, or the directory with everything below it. What does not exist is
left out. -/
partial def gather (disk : Disk) (path : String) : IO Disk := do
  match ← (IO.FS.realPath path).toBaseIO with
  | .error _ => return disk
  | .ok real =>
    let place := Path.elements (Text.ofString real.toString)
    if (disk.entries.lookup place).isSome then return disk
    if ← real.isDir then
      let disk := (Place.steps place).foldl Disk.ensureDirectory disk
      (← real.readDir).foldlM (fun disk entry => gather disk entry.path.toString) disk
    else return disk.plant place (.file (← IO.FS.readBinFile real).toList)

/-- The parts of a word that may be paths. -/
def pathsIn (word : String) : List String :=
  (word.splitOn "=").flatMap fun part => (part.splitOn ":").filter fun path => !path.isEmpty

/-- The picture of the files that a command line may touch. -/
def picture (args : List String) : IO Disk := do
  let here := (← IO.currentDir).toString
  let place := Path.elements (Text.ofString here)
  let above := (Place.steps place).map fun above =>
    stringOf (Path.join (Place.path above) Manifest.fileName)
  let disk ← gather ⟨[], place⟩ here
  (above ++ args.flatMap pathsIn).foldlM gather disk

/-- Write back the entries that are new or have changed. -/
def writeBack (before after : Disk) : IO Unit := do
  for (place, entry) in after.entries.mergeSort fun a b => a.1.length ≤ b.1.length do
    if before.entry? place != some entry then
      let path := stringOf (Place.path place)
      match entry with
      | .directory => IO.FS.createDirAll path
      | .file contents => IO.FS.writeBinFile path contents.toByteArray

/-- What goes into the images made now. -/
def stampNow : IO Stamp := do
  let bytes ← IO.getRandomBytes 16
  let now ← Std.Time.Timestamp.now
  return { buildId := Stamp.idOfBytes bytes.toList, created := now.toSecondsSinceUnixEpoch.val }

/-- All of the standard input. -/
partial def readInput (stream : IO.FS.Stream) (done : ByteArray) : IO ByteArray := do
  let bytes ← stream.read 65536
  if bytes.isEmpty then return done else readInput stream (done ++ bytes)

end Tapestry.Program

open Tapestry in
/-- Run a command line. -/
def main (args : List String) : IO UInt32 := do
  let words := args.map Text.ofString
  let disk ← Program.picture args
  let input ← if Command.readsInput words then Program.readInput (← IO.getStdin) .empty else pure .empty
  -- There is always an outcome here: the evaluation of a run without end does not end either.
  match Command.run disk (← Program.stampNow) input.toList words with
  | none => return 0
  | some outcome =>
    Program.writeBack disk outcome.disk
    (← IO.getStdout).write outcome.printed.toByteArray
    (← IO.getStderr).write outcome.complained.toByteArray
    return outcome.exit.toUInt32

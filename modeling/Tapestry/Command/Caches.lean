import Tapestry.Cache.Store
import Tapestry.Command.Outcome
import Tapestry.Manifest
import Tapestry.Text.Moment

/-!
# Caches on the command line

One command lists the images of a cache, drops one, or drops all. The cache is the one named on
the command line, else the one of the nearest project.
-/

namespace Tapestry.Command

variable [Database]

/-- How to use the command. -/
def cacheUsage : Text := "Usage: brc cache [-db path] ls|rm <name>|clear\n"

/-- The path given last, empty if none is, and the other words. Nothing if a path is missing. -/
def takePath? (path : Text) (words : List Text) : List Text → Option (Text × List Text)
  | [] => some (path, words.reverse)
  | word :: rest =>
    if word == "-db" || word == "--db" then
      match rest with
      | [] => none
      | path :: rest => takePath? path words rest
    else takePath? path (word :: words) rest

/-- The line about one file that an entry was built from. -/
def dependencyLine (dependency : Dependency) : Text :=
  Text.ofString "    " ++ dependency.digest.take 12 ++ "  " ++ dependency.file ++ "\n"

/-- The lines about one entry. -/
def entryLines (entry : CacheEntry) : Text :=
  let size := Number.padLeft 32 6 (Number.nat entry.size)
  let head : Text :=
    entry.buildId ++ "  " ++ Moment.write entry.created ++ "  " ++ size ++ " bytes  " ++ entry.name ++ "\n"
  head ++ entry.dependencies.flatMap dependencyLine

/-- Drop entries in turn, up to the first that cannot be dropped. -/
def dropAll (store : Store) (disk : Disk) :
    List CacheEntry → Except CacheFault Unit × Store × Disk
  | [] => (.ok (), store, disk)
  | entry :: rest =>
    match store.delete disk entry.name with
    | (.ok (), store, disk) => dropAll store disk rest
    | failed => failed

/-- List the entries. -/
def listCache (store : Store) (disk : Disk) : Outcome :=
  match store.entries with
  | .error fault => Outcome.fail { disk } fault.message
  | .ok entries => Outcome.print { disk } (entries.flatMap entryLines)

/-- Drop the entry of a unit. -/
def dropFromCache (store : Store) (disk : Disk) (names : List Text) : Outcome :=
  match names with
  | [name] =>
    match store.delete disk (disk.absolute name) with
    | (.error fault, _, disk) => Outcome.fail { disk } fault.message
    | (.ok (), _, disk) => { disk }
  | _ => Outcome.complain { disk } 2 "Error: rm takes one entry name\n"

/-- Drop every entry. -/
def clearCache (store : Store) (disk : Disk) : Outcome :=
  match store.entries with
  | .error fault => Outcome.fail { disk } fault.message
  | .ok entries =>
    match dropAll store disk entries with
    | (.error fault, _, disk) => Outcome.fail { disk } fault.message
    | (.ok (), _, disk) =>
      Outcome.print { disk } (Text.ofString "removed " ++ Number.nat entries.length ++ " entries\n")

/-- Do what the words say with the cache at a path. -/
def withCache (disk : Disk) (path : Text) : List Text → Outcome
  | [] => Outcome.complain { disk } 2 cacheUsage
  | word :: rest =>
    match Store.openAt disk path with
    | (.error fault, disk) => Outcome.fail { disk } fault.message
    | (.ok store, disk) =>
      if word == "ls" then listCache store disk
      else if word == "rm" then dropFromCache store disk rest
      else if word == "clear" then clearCache store disk
      else Outcome.complain { disk } 2
        (Text.ofString "Error: unknown cache command " ++ Quoted.write word ++ "\n")

/-- Work on a cache as a command line says. -/
def caches [Manifest.Decoder] (disk : Disk) (args : List Text) : Outcome :=
  match takePath? [] [] args with
  | none => Outcome.complain { disk } 2 "Error: -db requires a path\n"
  | some (path, words) =>
    if !path.isEmpty then withCache disk path words
    else
      match Manifest.find disk "." with
      | .error fault =>
        Outcome.complain { disk } 1 (Text.ofString "Error loading manifest: " ++ fault.message ++ "\n")
      | .ok manifest =>
        let path := manifest.elim [] Manifest.cachePath
        if path.isEmpty then
          Outcome.fail { disk } ("no cache configured (use -db or [build] cache in " ++ Manifest.fileName ++ ")")
        else withCache disk path words

end Tapestry.Command

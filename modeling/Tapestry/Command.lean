import Tapestry.Command.Caches
import Tapestry.Command.Check
import Tapestry.Command.Compile

/-!
# The command line

The first word may name a command that works on caches, runs fixtures, or serves an editor; any
other command line compiles.
-/

namespace Tapestry.Command

/-- The answer to a command that serves an editor and takes no words. -/
def serve (disk : Disk) (args : List Text) : Outcome :=
  if args.isEmpty then { disk } else Outcome.complain { disk } 2 "Usage: brc lsp\n"

/-- Run a command line on a disk, with the bytes of the standard input. There is no outcome if a
program runs without end. -/
def run [Manifest.Decoder] [Image.Codec] [Database] (disk : Disk) (stamp : Stamp) (passed : Text)
    (args : List Text) : Option Outcome :=
  match args with
  | [] => compile disk stamp passed []
  | word :: rest =>
    if word == "cache" then caches disk rest
    else if word == "test" then check disk rest
    else if word == "lsp" then serve disk rest
    else compile disk stamp passed args

/-- Whether a command line lets a program read the standard input. -/
def readsInput (args : List Text) : Bool :=
  match readOptions {} args with
  | .ok (options, _) => options.run && options.input.isEmpty
  | .error _ => false

end Tapestry.Command

import Tapestry.File.Disk

/-!
# Outcomes

Running a command changes the disk, prints to two channels, and ends with a number that tells
whether it worked: 0 if it did, 1 if it failed, 2 if it was not understood.
-/

namespace Tapestry.Command

/-- What a command has done. -/
structure Outcome where
  disk : Disk
  exit : Nat := 0
  /-- What went to the standard output. -/
  printed : Text := []
  /-- What went to the error channel. -/
  complained : Text := []

namespace Outcome

/-- Print to the standard output. -/
def print (outcome : Outcome) (t : Text) : Outcome := { outcome with printed := outcome.printed ++ t }

/-- Complain and end with a number. -/
def complain (outcome : Outcome) (exit : Nat) (t : Text) : Outcome :=
  { outcome with exit, complained := outcome.complained ++ t }

/-- Fail with a message. -/
def fail (outcome : Outcome) (message : Text) : Outcome :=
  outcome.complain 1 (Text.ofString "Error: " ++ message ++ "\n")

end Outcome

/-- Write a file and make its directory; what was refused, if anything. -/
def writeFile (disk : Disk) (path contents : Text) : Disk × Option FileFault :=
  match disk.makeDirectories (Path.directory path) with
  | .error fault => (disk, some fault)
  | .ok disk =>
    match disk.write path contents with
    | .error fault => (disk, some fault)
    | .ok disk => (disk, none)

end Tapestry.Command

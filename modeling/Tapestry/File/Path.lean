import Tapestry.Text

/-!
# Paths

Paths are texts with slashes. Cleaning removes empty and `.` elements and resolves `..` against
the element before it, by the text alone.
-/

namespace Tapestry.Path

/-- The slash between elements. -/
def slash : UInt8 := 47

/-- A path that starts at the root. -/
def isAbsolute (path : Text) : Bool := path.head? == some slash

/-- The elements between slashes that are not empty. -/
def elements (path : Text) : List Text := (path.splitOn slash).filter (!·.isEmpty)

/-- Add an element behind a cleaned path, given as its elements in reverse. -/
def descend (rooted : Bool) (done : List Text) (element : Text) : List Text :=
  if element = Text.ofString "." then done
  else if element = Text.ofString ".." then
    match done with
    | [] => if rooted then [] else [element]
    | last :: before => if last = Text.ofString ".." then element :: done else before
  else element :: done

/-- The shortest path that means the same by its text. -/
def clean (path : Text) : Text :=
  let rooted := isAbsolute path
  let kept := ((elements path).foldl (descend rooted) []).reverse
  let joined := Text.join "/" kept
  if rooted then slash :: joined
  else if joined.isEmpty then "."
  else joined

/-- A path relative to another, cleaned. -/
def join (base path : Text) : Text :=
  if base.isEmpty then if path.isEmpty then [] else clean path
  else clean (base ++ [slash] ++ path)

/-- The text up to and including the last slash. -/
def upToSlash (path : Text) : Text := (path.reverse.dropWhile (· != slash)).reverse

/-- The path without its last element. -/
def directory (path : Text) : Text := clean (upToSlash path)

/-- The last element of a path. -/
def base (path : Text) : Text :=
  if path.isEmpty then "."
  else
    let trimmed := Text.dropRight (· == slash) path
    if trimmed.isEmpty then [slash] else (trimmed.reverse.takeWhile (· != slash)).reverse

/-- The part of the last element from its last dot on; empty if it has no dot. -/
def extension (path : Text) : Text :=
  let name := (path.reverse.takeWhile (· != slash)).reverse
  if name.contains 46 then (46 :: (name.reverse.takeWhile (· != 46)).reverse) else []

/-- A path seen from a working directory, cleaned. -/
def absolute (working path : Text) : Text := if isAbsolute path then clean path else join working path

/-- The paths of a list separated by colons; an empty list has none. -/
def splitList (list : Text) : List Text := if list.isEmpty then [] else list.splitOn 58

end Tapestry.Path

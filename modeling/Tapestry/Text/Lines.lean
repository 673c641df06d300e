import Tapestry.Text

/-!
# Lines

Text is divided at line feeds, and one carriage return before a line feed belongs to the
line end. Reading stops at a line that fills the line buffer before its end is seen; the
lines before it have been delivered.
-/

namespace Tapestry.Lines

/-- Bytes the line buffer holds; a line must be shorter. -/
def limit : Nat := 65536

/-- The lines read, and whether reading stopped at a line too long for the buffer. -/
structure Reading where
  lines : List Text
  overlong : Bool
  deriving DecidableEq, Repr

/-- Drop one carriage return at the end. -/
def dropReturn (line : Text) : Text :=
  if line.getLast? = some 13 then line.dropLast else line

/-- The pieces between line feeds; the last piece counts only when it is not empty. -/
def pieces (t : Text) : List Text :=
  let all := t.splitOn 10
  if all.getLast? = some [] then all.dropLast else all

/-- The lines of a text, up to the first that is too long. -/
def read (t : Text) : Reading :=
  let all := pieces t
  let short := all.takeWhile (·.length < limit)
  { lines := short.map dropReturn, overlong := short.length < all.length }

end Tapestry.Lines

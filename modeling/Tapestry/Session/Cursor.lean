import Tapestry.Text

/-!
# Cursors

An editor asks about a place in a text: a line, and a byte in it, both counted from 0. The word
at the place is the longest run of word bytes that touches it, and its beginning is the part of the
run before it.
-/

namespace Tapestry

/-- A place in a text. -/
structure Cursor where
  line : Nat
  character : Nat
  deriving DecidableEq, Repr

namespace Cursor

/-- Whether a byte belongs to words: letters, digits and underscores, where a byte counts as the
character of its number. -/
def isWordByte (b : UInt8) : Bool :=
  Byte.isDigit b || Byte.isLetter b || b == 95 || b == 0xAA || b == 0xB5 || b == 0xBA ||
    (0xC0 ≤ b && b != 0xD7 && b != 0xF7)

/-- The parts of the line before and behind the cursor. A cursor behind the end stands at the end,
and a text without the line has no parts. -/
def parts (cursor : Cursor) (t : Text) : Text × Text :=
  match (t.splitOn 10).drop cursor.line with
  | [] => ([], [])
  | line :: _ => (line.take cursor.character, line.drop cursor.character)

/-- The run of word bytes at the end of a text. -/
def trailing (t : Text) : Text := (t.reverse.takeWhile isWordByte).reverse

/-- The part of the word before the cursor. -/
def wordBefore (cursor : Cursor) (t : Text) : Text := trailing (cursor.parts t).1

/-- The word at the cursor. -/
def wordAt (cursor : Cursor) (t : Text) : Text :=
  let (before, behind) := cursor.parts t
  trailing before ++ behind.takeWhile isWordByte

end Cursor

end Tapestry

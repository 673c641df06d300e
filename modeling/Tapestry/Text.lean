/-!
# Byte text

Sources, names and messages are sequences of bytes. Nothing asks them to be valid UTF-8:
columns and lengths count bytes, and a stray byte is carried along unchanged.

String literals stand for their UTF-8 bytes through a coercion, so wording can be written
as ordinary strings.
-/

namespace Tapestry

/-- Text is a list of bytes. -/
abbrev Text := List UInt8

namespace Text

/-- The UTF-8 bytes of a string. -/
def ofString (s : String) : Text := s.toList.flatMap String.utf8EncodeChar

instance : Coe String Text := ⟨ofString⟩

/-- Pieces with a separator between neighbours. -/
def join (separator : Text) (pieces : List Text) : Text := separator.intercalate pieces

/-- One piece per line, each ended by a line feed. -/
def unlines (lines : List Text) : Text := lines.flatMap (· ++ "\n")

/-- Drop the longest suffix of bytes that satisfy a test. -/
def dropRight (test : UInt8 → Bool) (t : Text) : Text := (t.reverse.dropWhile test).reverse

/-- Put a text in place of every occurrence of one byte. -/
def replaceByte (old : UInt8) (new : Text) (t : Text) : Text :=
  t.flatMap fun b => if b == old then new else [b]

/-- Cut at the first occurrence of a byte; the byte itself is in neither part. -/
def cut (separator : UInt8) (t : Text) : Text × Text :=
  (t.takeWhile (· != separator), (t.dropWhile (· != separator)).drop 1)

/-- Copies of a text, one after the other. -/
def times (count : Nat) (t : Text) : Text := (List.replicate count t).flatten

/-- Byte order, with a proper prefix before its extensions. -/
def atMost (a b : Text) : Bool := decide (a ≤ b)

/-- Sort texts by byte order. -/
def sort (texts : List Text) : List Text := texts.mergeSort atMost

end Text

namespace Byte

/-- The byte of an ASCII character. -/
def ofChar (c : Char) : UInt8 := c.toUInt8

/-- Decimal digits. -/
def isDigit (b : UInt8) : Bool := 48 ≤ b && b ≤ 57

/-- ASCII letters of either case. -/
def isLetter (b : UInt8) : Bool := (65 ≤ b && b ≤ 90) || (97 ≤ b && b ≤ 122)

/-- The value of a hexadecimal digit of either case. -/
def hexValue? (b : UInt8) : Option Nat :=
  if isDigit b then some (b.toNat - 48)
  else if 97 ≤ b && b ≤ 102 then some (b.toNat - 87)
  else if 65 ≤ b && b ≤ 70 then some (b.toNat - 55)
  else none

/-- Blanks between words of a line are spaces and tabs. -/
def isBlank (b : UInt8) : Bool := b == 32 || b == 9

end Byte

end Tapestry

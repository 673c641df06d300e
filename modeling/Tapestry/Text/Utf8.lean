import Tapestry.Text

/-!
# UTF-8 reading

Text is read as a list of glyphs: well-formed sequences are code points, and every byte that
starts none stands alone as a stray byte. Writing the glyphs back gives the text again.
-/

namespace Tapestry.Utf8

/-- A code point, or a byte that starts no well-formed sequence. -/
inductive Glyph where
  | scalar (char : Char)
  | stray (byte : UInt8)
  deriving DecidableEq, Repr

/-- Continuation bytes are `10xxxxxx`. -/
def isTail (b : UInt8) : Bool := 0x80 ≤ b && b ≤ 0xBF

/-- The code point of two bytes. -/
def two? (a b : UInt8) : Option Char :=
  if 0xC2 ≤ a && a ≤ 0xDF && isTail b then
    some (Char.ofNat ((a.toNat - 0xC0) * 64 + (b.toNat - 0x80)))
  else none

/-- The code point of three bytes; overlong forms and surrogates have none. -/
def three? (a b c : UInt8) : Option Char :=
  let low : UInt8 := if a == 0xE0 then 0xA0 else 0x80
  let high : UInt8 := if a == 0xED then 0x9F else 0xBF
  if 0xE0 ≤ a && a ≤ 0xEF && low ≤ b && b ≤ high && isTail c then
    some (Char.ofNat ((a.toNat - 0xE0) * 4096 + (b.toNat - 0x80) * 64 + (c.toNat - 0x80)))
  else none

/-- The code point of four bytes; overlong forms and values above U+10FFFF have none. -/
def four? (a b c d : UInt8) : Option Char :=
  let low : UInt8 := if a == 0xF0 then 0x90 else 0x80
  let high : UInt8 := if a == 0xF4 then 0x8F else 0xBF
  if 0xF0 ≤ a && a ≤ 0xF4 && low ≤ b && b ≤ high && isTail c && isTail d then
    some (Char.ofNat ((a.toNat - 0xF0) * 262144 + (b.toNat - 0x80) * 4096 +
      (c.toNat - 0x80) * 64 + (d.toNat - 0x80)))
  else none

/-- The first glyph of a non-empty text and the number of bytes it takes after the first. -/
def first (a : UInt8) (rest : Text) : Glyph × Nat :=
  if a < 0x80 then (.scalar (Char.ofNat a.toNat), 0)
  else
    match rest with
    | [] => (.stray a, 0)
    | [b] => ((two? a b).elim (.stray a, 0) fun char => (.scalar char, 1))
    | [b, c] =>
      (two? a b).elim ((three? a b c).elim (.stray a, 0) fun char => (.scalar char, 2))
        fun char => (.scalar char, 1)
    | b :: c :: d :: _ =>
      (two? a b).elim ((three? a b c).elim ((four? a b c d).elim (.stray a, 0)
        fun char => (.scalar char, 3)) fun char => (.scalar char, 2)) fun char => (.scalar char, 1)

/-- Read glyphs until the bytes run out; `skip` bytes belong to the glyph read last. -/
def read (glyphs : Array Glyph) : Nat → Text → List Glyph
  | _, [] => glyphs.toList
  | skip + 1, _ :: rest => read glyphs skip rest
  | 0, a :: rest => read (glyphs.push (first a rest).1) (first a rest).2 rest

/-- The glyphs of a text. -/
def glyphs (t : Text) : List Glyph := read #[] 0 t

/-- The bytes of a glyph. -/
def Glyph.bytes : Glyph → Text
  | .scalar char => String.utf8EncodeChar char
  | .stray byte => [byte]

/-- The text of a list of glyphs. -/
def text (gs : List Glyph) : Text := gs.flatMap Glyph.bytes

/-- Well-formed text has no stray byte. -/
def valid (t : Text) : Bool :=
  (glyphs t).all fun
    | .scalar _ => true
    | .stray _ => false

/-- The white space that trimming and field splitting recognise. -/
def isSpace : Glyph → Bool
  | .stray _ => false
  | .scalar char =>
    let code := char.toNat
    (0x09 ≤ code && code ≤ 0x0D) || code == 0x20 || code == 0x85 || code == 0xA0 ||
      code == 0x1680 || (0x2000 ≤ code && code ≤ 0x200A) || code == 0x2028 || code == 0x2029 ||
      code == 0x202F || code == 0x205F || code == 0x3000

/-- Drop white space at both ends. -/
def trim (t : Text) : Text :=
  text (((glyphs t).dropWhile isSpace).reverse.dropWhile isSpace).reverse

/-- The maximal runs of glyphs that are not white space. -/
def fields (t : Text) : List Text :=
  (((glyphs t).splitOnP isSpace).filter (!·.isEmpty)).map text

/-- The case-insensitive form of a glyph over the letters that ASCII letters fold to:
besides the upper case these are the long s and the Kelvin sign. -/
def fold : Glyph → Glyph
  | .stray byte => .stray byte
  | .scalar char =>
    if char.toNat == 0x017F then .scalar 's'
    else if char.toNat == 0x212A then .scalar 'k'
    else .scalar char.toLower

/-- Equality up to case, for texts of which one is ASCII. A stray byte counts as the
replacement character, which no ASCII text holds. -/
def equalFold (a b : Text) : Bool := (glyphs a).map fold == (glyphs b).map fold

end Tapestry.Utf8

import Tapestry.Text.Number
import Tapestry.Text.Utf8
import Tapestry.Text.Printable

/-!
# Quoted text

Writing puts text between double quotes with escapes for everything that is not printable.
Reading accepts three forms: double quotes with escapes, single quotes around at most one
character, and back quotes around raw text.
-/

namespace Tapestry.Quoted

open Utf8 (Glyph)

/-- How one glyph is written between double quotes. -/
def escape : Glyph → Text
  | .stray byte => "\\x" ++ Number.hex 2 byte.toNat
  | .scalar char =>
    if char = '"' then "\\\""
    else if char = '\\' then "\\\\"
    else if Printable.holds char.toNat then String.utf8EncodeChar char
    else
      match char.toNat with
      | 7 => "\\a"
      | 8 => "\\b"
      | 9 => "\\t"
      | 10 => "\\n"
      | 11 => "\\v"
      | 12 => "\\f"
      | 13 => "\\r"
      | code =>
        if code < 0x20 || code == 0x7F then "\\x" ++ Number.hex 2 code
        else if code < 0x10000 then "\\u" ++ Number.hex 4 code
        else "\\U" ++ Number.hex 8 code

/-- Text between double quotes. -/
def write (t : Text) : Text := "\"" ++ (Utf8.glyphs t).flatMap escape ++ "\""

/-- The value of exactly `count` hexadecimal digits, and what follows them. -/
def hexDigits? : Nat → Nat → Text → Option (Nat × Text)
  | 0, value, rest => some (value, rest)
  | _ + 1, _, [] => none
  | count + 1, value, b :: rest =>
    (Byte.hexValue? b).bind fun digit => hexDigits? count (16 * value + digit) rest

/-- The value of an octal digit. -/
def octal? (b : UInt8) : Option Nat := if 48 ≤ b && b ≤ 55 then some (b.toNat - 48) else none

/-- A code point that text may hold: not a surrogate and at most U+10FFFF. -/
def scalar? (code : Nat) : Option Char :=
  if code < 0xD800 || (0xDFFF < code && code ≤ 0x10FFFF) then some (Char.ofNat code) else none

/-- The bytes an escape stands for, read after its backslash, and what follows it. -/
def unescape? (quote : UInt8) : Text → Option (Text × Text)
  | 97 :: rest => some ([7], rest)
  | 98 :: rest => some ([8], rest)
  | 102 :: rest => some ([12], rest)
  | 110 :: rest => some ([10], rest)
  | 114 :: rest => some ([13], rest)
  | 116 :: rest => some ([9], rest)
  | 118 :: rest => some ([11], rest)
  | 92 :: rest => some ([92], rest)
  | 120 :: rest => (hexDigits? 2 0 rest).map fun (value, rest) => ([UInt8.ofNat value], rest)
  | 117 :: rest =>
    (hexDigits? 4 0 rest).bind fun (value, rest) =>
      (scalar? value).map fun char => (String.utf8EncodeChar char, rest)
  | 85 :: rest =>
    (hexDigits? 8 0 rest).bind fun (value, rest) =>
      (scalar? value).map fun char => (String.utf8EncodeChar char, rest)
  | b :: rest =>
    if b == 39 || b == 34 then
      if b == quote then some ([b], rest) else none
    else
      match octal? b, rest with
      | some high, c :: d :: rest =>
        match octal? c, octal? d with
        | some middle, some low =>
          let value := 64 * high + 8 * middle + low
          if value ≤ 255 then some ([UInt8.ofNat value], rest) else none
        | _, _ => none
      | _, _ => none
  | [] => none

/-- The bytes of the next character inside quotes, and what follows it. A line feed or the
closing quote is no character, and a stray byte is read as the replacement character. -/
def character? (quote : UInt8) : Text → Option (Text × Text)
  | [] => none
  | b :: rest =>
    if b == quote || b == 10 then none
    else if b == 92 then unescape? quote rest
    else if b < 0x80 then some ([b], rest)
    else
      match Utf8.first b rest with
      | (.scalar char, more) => some (String.utf8EncodeChar char, rest.drop more)
      | (.stray _, _) => some ([0xEF, 0xBF, 0xBD], rest)

/-- Read characters up to the double quote that must end the text. -/
def body? : Nat → Array UInt8 → Text → Option Text
  | 0, _, _ => none
  | fuel + 1, done, rest =>
    match rest with
    | [34] => some done.toList
    | _ => (character? 34 rest).bind fun (bytes, rest) => body? fuel (done.appendList bytes) rest

/-- The text between the quotes, when the whole input is one quoted text. -/
def read? (t : Text) : Option Text :=
  match t with
  | 34 :: rest => body? t.length #[] rest
  | [39, 39] => some []
  | 39 :: rest =>
    (character? 39 rest).bind fun (bytes, rest) => if rest = [39] then some bytes else none
  | 96 :: rest =>
    if rest.getLast? = some 96 && rest.dropLast.all (· != 96) then
      some (rest.dropLast.filter (· != 13))
    else none
  | _ => none

end Tapestry.Quoted

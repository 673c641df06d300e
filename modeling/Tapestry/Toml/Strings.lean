import Tapestry.Text.Quoted

/-!
# Strings of a configuration text

Strings stand between double quotes with escapes, or between single quotes as they are. Three
quotes open a string of several lines; a line end right after them is not part of it, and up to
two quotes may stand before the closing three. A backslash at the end of a line of such a string
drops the line end and the white space that follows.
-/

namespace Tapestry.Toml

/-- A line feed or the return before one. -/
def isLineEnd (b : UInt8) : Bool := b == 10 || b == 13

/-- White space that a backslash at the end of a line drops. -/
def isGap (b : UInt8) : Bool := Byte.isBlank b || isLineEnd b

/-- The character given by so many hexadecimal digits. -/
def codePoint? (count : Nat) (t : Text) : Option (Text × Text) := do
  let (code, rest) ← Quoted.hexDigits? count 0 t
  let c ← Quoted.scalar? code
  return (String.utf8EncodeChar c, rest)

/-- The bytes an escape stands for, read after its backslash, and what follows it. -/
def escape? : Text → Option (Text × Text)
  | [] => none
  | letter :: rest =>
    match Char.ofUInt8 letter with
    | 'b' => some ([8], rest)
    | 't' => some ([9], rest)
    | 'n' => some ([10], rest)
    | 'f' => some ([12], rest)
    | 'r' => some ([13], rest)
    | 'e' => some ([27], rest)
    | '"' => some ([34], rest)
    | '\\' => some ([92], rest)
    | 'x' => codePoint? 2 rest
    | 'u' => codePoint? 4 rest
    | 'U' => codePoint? 8 rest
    | _ => none

/-- The rest of a string in double quotes, with `done` already read. -/
def basic? : (fuel : Nat) → (done : Array UInt8) → Text → Option (Text × Text)
  | 0, _, _ => none
  | _, _, [] => none
  | fuel + 1, done, b :: rest =>
    if b = 34 then some (done.toList, rest)
    else if b = 92 then
      match escape? rest with
      | some (bytes, rest) => basic? fuel (done ++ bytes) rest
      | none => none
    else if isLineEnd b then none
    else basic? fuel (done.push b) rest

/-- The rest of a string of several lines in double quotes. -/
def basicLines? : (fuel : Nat) → (done : Array UInt8) → Text → Option (Text × Text)
  | 0, _, _ => none
  | _, _, [] => none
  | fuel + 1, done, b :: rest =>
    if b = 34 then
      let quotes := (rest.takeWhile (· == 34)).length + 1
      if 5 < quotes then none
      else if 3 ≤ quotes then some (done.toList ++ List.replicate (quotes - 3) 34, rest.drop (quotes - 1))
      else basicLines? fuel (done.push b) rest
    else if b = 92 then
      if (rest.takeWhile isGap).contains 10 then basicLines? fuel done (rest.dropWhile isGap)
      else
        match escape? rest with
        | some (bytes, rest) => basicLines? fuel (done ++ bytes) rest
        | none => none
    else basicLines? fuel (done.push b) rest

/-- The rest of a string in single quotes. -/
def literal? (t : Text) : Option (Text × Text) :=
  let contents := t.takeWhile fun b => b != 39 && !isLineEnd b
  match t.drop contents.length with
  | 39 :: rest => some (contents, rest)
  | _ => none

/-- The rest of a string of several lines in single quotes. -/
def literalLines? (done : Array UInt8) : Text → Option (Text × Text)
  | [] => none
  | b :: rest =>
    if b = 39 then
      let quotes := (rest.takeWhile (· == 39)).length + 1
      if 5 < quotes then none
      else if 3 ≤ quotes then some (done.toList ++ List.replicate (quotes - 3) 39, rest.drop (quotes - 1))
      else literalLines? (done.push b) rest
    else literalLines? (done.push b) rest

/-- Drop one line end at the front. -/
def dropLineEnd : Text → Text
  | 10 :: rest => rest
  | 13 :: 10 :: rest => rest
  | t => t

/-- Read a string on one line. -/
def quoted? : Text → Option (Text × Text)
  | 34 :: rest => basic? (rest.length + 1) #[] rest
  | 39 :: rest => literal? rest
  | _ => none

/-- Read a string on one or several lines. -/
def string? : Text → Option (Text × Text)
  | 34 :: 34 :: 34 :: rest => basicLines? (rest.length + 1) #[] (dropLineEnd rest)
  | 39 :: 39 :: 39 :: rest => literalLines? #[] (dropLineEnd rest)
  | t => quoted? t

end Tapestry.Toml

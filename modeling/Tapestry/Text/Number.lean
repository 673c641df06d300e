import Tapestry.Text

/-!
# Numbers as text

Decimal and hexadecimal numerals, and the reader of signed decimal integers. A numeral is
read only when its value fits a signed 64-bit word.
-/

namespace Tapestry.Number

/-- The least value of a signed 64-bit word. -/
def least : Int := -0x8000000000000000

/-- The greatest value of a signed 64-bit word. -/
def greatest : Int := 0x7fffffffffffffff

/-- A value that fits a signed 64-bit word. -/
def fits (n : Int) : Bool := least ≤ n && n ≤ greatest

/-- The number of values of a 64-bit word. -/
def span : Nat := 0x10000000000000000

/-- Reduce modulo `span` into the range of a signed 64-bit word. -/
def wrap (n : Int) : Int := n.bmod span

/-- Decimal digits without leading zeros. -/
def nat (n : Nat) : Text := (Nat.toDigits 10 n).map Byte.ofChar

/-- A decimal numeral, with a sign only when negative. -/
def int (n : Int) : Text :=
  if n < 0 then "-" ++ nat n.natAbs else nat n.natAbs

/-- A decimal numeral that always carries a sign. -/
def signed (n : Int) : Text :=
  if n < 0 then "-" ++ nat n.natAbs else "+" ++ nat n.natAbs

/-- Pad on the left with copies of a byte up to a least width. -/
def padLeft (byte : UInt8) (width : Nat) (t : Text) : Text :=
  List.replicate (width - t.length) byte ++ t

/-- Lower-case hexadecimal digits, at least `width` of them. -/
def hex (width n : Nat) : Text :=
  padLeft 48 width ((Nat.toDigits 16 n).map Byte.ofChar)

/-- Upper-case hexadecimal digits, at least `width` of them. -/
def hexUpper (width n : Nat) : Text :=
  (hex width n).map fun b => if 97 ≤ b then b - 32 else b

/-- Each byte as two lower-case hexadecimal digits. -/
def hexBytes (t : Text) : Text := t.flatMap fun b => hex 2 b.toNat

/-- The bytes of a number, most significant first. -/
def bigEndian (width n : Nat) : Text :=
  (List.range width).map fun i => UInt8.ofNat (n >>> (8 * (width - 1 - i)))

/-- The number that bytes give, most significant first. -/
def ofBigEndian (bytes : Text) : Nat := bytes.foldl (fun n b => n * 256 + b.toNat) 0

/-- The value of a run of decimal digits, most significant first. -/
def ofDigits (digits : Text) : Nat :=
  digits.foldl (fun value b => 10 * value + (b.toNat - 48)) 0

/-- The value of a non-empty run of decimal digits. -/
def nat? (t : Text) : Option Nat :=
  if !t.isEmpty && t.all Byte.isDigit then some (ofDigits t) else none

/-- An integer in the range of a signed 64-bit word. -/
def inRange? (n : Int) : Option Int := if fits n then some n else none

/-- Read an optional sign and decimal digits as a signed 64-bit value. -/
def int? (t : Text) : Option Int :=
  match t with
  | 43 :: digits => (nat? digits).bind fun n => inRange? n
  | 45 :: digits => (nat? digits).bind fun n => inRange? (-n)
  | digits => (nat? digits).bind fun n => inRange? n

/-! ## Numerals in any base -/

/-- Why a text is no numeral of a signed 64-bit value. -/
inductive Problem where
  | malformed
  | outOfRange
  deriving DecidableEq, Repr

/-- The value of a digit or letter as a digit. -/
def digit? (b : UInt8) : Option Nat :=
  if Byte.isDigit b then some (b.toNat - 48)
  else if 97 ≤ b && b ≤ 122 then some (b.toNat - 87)
  else if 65 ≤ b && b ≤ 90 then some (b.toNat - 55)
  else none

/-- The value of digits in a base after `n`, without regard to underscores. The first byte that
is no digit or takes the value out of 64 bits decides what is wrong. -/
def magnitude (base n : Nat) : Text → Except Problem Nat
  | [] => .ok n
  | b :: rest =>
    if b = 95 then magnitude base n rest
    else
      match digit? b with
      | none => .error .malformed
      | some d =>
        if base ≤ d then .error .malformed
        else if span ≤ n * base + d then .error .outOfRange
        else magnitude base (n * base + d) rest

/-- Whether every underscore stands between digits. It may also follow what announces the base. -/
def groupsWell (announced : Bool) (run : Text) : Bool :=
  match run.splitOn 95 with
  | [] => true
  | [_] => true
  | first :: rest => (announced || !first.isEmpty) && rest.all (!·.isEmpty)

/-- The base that a numeral announces, whether it does, and its digits. A leading zero alone
announces eight. -/
def announce (t : Text) : Nat × Bool × Text :=
  match t with
  | 48 :: letter :: digit :: rest =>
    let letter := if 65 ≤ letter && letter ≤ 90 then letter + 32 else letter
    if letter = 98 then (2, true, digit :: rest)
    else if letter = 111 then (8, true, digit :: rest)
    else if letter = 120 then (16, true, digit :: rest)
    else (8, true, t.drop 1)
  | 48 :: rest => (8, true, rest)
  | _ => (10, false, t)

/-- Read a numeral with an optional sign in the base it announces. -/
def literal (t : Text) : Except Problem Int :=
  let (negative, unsigned) :=
    match t with
    | 45 :: rest => (true, rest)
    | 43 :: rest => (false, rest)
    | _ => (false, t)
  let (base, announced, run) := announce unsigned
  if unsigned.isEmpty then .error .malformed
  else do
    let n ← magnitude base 0 run
    if !groupsWell announced run then .error .malformed
    else
      match inRange? (if negative then -(n : Int) else n) with
      | some value => return value
      | none => .error .outOfRange

end Tapestry.Number

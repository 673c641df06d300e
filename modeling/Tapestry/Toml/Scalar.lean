import Tapestry.Text.Number

/-!
# Numbers and moments

A configuration text writes integers in four bases, floating point numbers, and moments: a
date, a time, or both, with or without a zone. Underscores may stand between digits. Leading
zeros are refused, and so are numbers out of range. Of a float or a moment only its being well
formed matters here.
-/

namespace Tapestry.Toml

/-- A run of digits in groups with one underscore between neighbours, without the underscores. -/
def ungroup? (run : Text) : Option Text :=
  let groups := run.splitOn 95
  if groups.all (!·.isEmpty) then some groups.flatten else none

/-- The value of digits in a base. -/
def ofBase (base : Nat) (digits : Text) : Nat :=
  digits.foldl (fun n b => n * base + (Byte.hexValue? b).getD 0) 0

/-- A digit of a base up to sixteen. -/
def isDigitOf (base : Nat) (b : UInt8) : Bool := (Byte.hexValue? b).any (· < base)

/-- A digit or an underscore. -/
def inRun (base : Nat) (b : UInt8) : Bool := isDigitOf base b || b == 95

/-- An integer in a base other than ten, after the letters that announce the base. -/
def based? (base : Nat) (t : Text) : Option (Int × Text) := do
  let digits ← ungroup? (t.takeWhile (inRun base))
  let n ← Number.inRange? (ofBase base digits)
  return (n, t.dropWhile (inRun base))

/-- Decimal digits in groups; a zero stands first only when it stands alone. -/
def natural? (run : Text) : Option Text := do
  let digits ← ungroup? run
  if !digits.all Byte.isDigit then none
  else if digits.head? = some 48 ∧ 1 < run.length then none
  else return digits

/-! ## Floating point -/

/-- The least magnitude that no 64-bit floating point number is near enough to stand for. -/
def overflow : Nat := 1 <<< 1024 - 1 <<< 970

/-- Whether a magnitude of `digits * 10 ^ exponent` can be represented. -/
def inFloatRange (digits : Nat) (exponent : Int) : Bool :=
  let scale : Int := (Number.nat digits).length + exponent
  if digits = 0 || scale < 300 then true
  else if 400 < scale then false
  else if 0 ≤ exponent then digits * Nat.pow 10 exponent.toNat < overflow
  else digits < overflow * Nat.pow 10 (-exponent).toNat

/-- The value of an exponent: a sign or none, and digits. -/
def exponent? (t : Text) : Option Int :=
  let (negative, run) :=
    match t with
    | 45 :: rest => (true, rest)
    | 43 :: rest => (false, rest)
    | _ => (false, t)
  do
    let digits ← ungroup? run
    if digits.all Byte.isDigit then
      let n : Int := Number.ofDigits digits
      return if negative then -n else n
    else none

/-- Whether a text without its sign is a floating point number that can be represented. -/
def isFloat (t : Text) : Bool :=
  let mark (b : UInt8) : Bool := b == 101 || b == 69
  let mantissa := t.takeWhile (!mark ·)
  let power := (t.dropWhile (!mark ·)).drop 1
  let hasPower := mantissa.length < t.length
  let whole := mantissa.takeWhile (· != 46)
  let fraction := (mantissa.dropWhile (· != 46)).drop 1
  let hasFraction := whole.length < mantissa.length
  let parts := do
    let whole ← natural? whole
    let fraction ← if hasFraction then ungroup? fraction else some []
    let exponent ← if hasPower then exponent? power else some 0
    if fraction.all Byte.isDigit then return (whole, fraction, exponent) else none
  match parts with
  | some (whole, fraction, exponent) =>
    inFloatRange (Number.ofDigits (whole ++ fraction)) (exponent - fraction.length)
  | none => false

/-- The bytes that may go on a floating point number. -/
def inFloat (b : UInt8) : Bool := Byte.isDigit b || [95, 46, 45, 43, 101, 69].contains b

/-! ## Moments -/

/-- A number of exactly so many digits within bounds, and what follows it. -/
def digits? (count low high : Nat) (t : Text) : Option (Nat × Text) :=
  let digits := t.take count
  let n := Number.ofDigits digits
  if digits.length = count ∧ digits.all Byte.isDigit ∧ low ≤ n ∧ n ≤ high then some (n, t.drop count)
  else none

/-- A given byte, and what follows it. -/
def byte? (b : UInt8) : Text → Option Text
  | [] => none
  | c :: rest => if c = b then some rest else none

/-- Years with a leap day. -/
def isLeap (year : Nat) : Bool := year % 4 == 0 && (year % 100 != 0 || year % 400 == 0)

/-- The number of days of a month. -/
def daysIn (year month : Nat) : Nat :=
  if month = 2 then if isLeap year then 29 else 28
  else if [4, 6, 9, 11].contains month then 30
  else 31

/-- Read a date of the calendar. -/
def date? (t : Text) : Option Text := do
  let (year, t) ← digits? 4 0 9999 t
  let (month, t) ← digits? 2 1 12 (← byte? 45 t)
  let (_, t) ← digits? 2 1 (daysIn year month) (← byte? 45 t)
  return t

/-- Read what may follow the seconds: a point and digits. -/
def fraction (t : Text) : Text :=
  match t with
  | 46 :: digit :: rest => if Byte.isDigit digit then rest.dropWhile Byte.isDigit else t
  | _ => t

/-- Read a time of the day; its seconds may be left out. -/
def time? (t : Text) : Option Text := do
  let (_, t) ← digits? 2 0 23 t
  let (_, t) ← digits? 2 0 59 (← byte? 58 t)
  match byte? 58 t with
  | none => return t
  | some t =>
    let (_, t) ← digits? 2 0 59 t
    return fraction t

/-- Whether a text is a zone: `Z`, or hours and minutes with a sign. -/
def isZone (t : Text) : Bool :=
  match t with
  | [90] => true
  | sign :: rest =>
    (sign == 43 || sign == 45) &&
      (do
        let (_, t) ← digits? 2 0 24 rest
        let (_, t) ← digits? 2 0 60 (← byte? 58 t)
        return t) == some []
  | [] => false

/-- Whether a text is a moment. A blank or a letter of either case divides date and time. -/
def isMoment (t : Text) : Bool :=
  let t := t.map fun b => if b == 122 then 90 else if b == 116 || b == 32 then 84 else b
  match date? t with
  | none => time? t == some []
  | some [] => true
  | some (84 :: rest) =>
    match time? rest with
    | some zone => zone.isEmpty || isZone zone
    | none => false
  | some _ => false

/-- The bytes that may go on a moment. -/
def inMoment (b : UInt8) : Bool :=
  Byte.isDigit b || [45, 58, 84, 116, 32, 46, 90, 122, 43].contains b

end Tapestry.Toml

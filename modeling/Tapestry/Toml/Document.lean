import Tapestry.Toml.Scalar
import Tapestry.Toml.Strings

/-!
# Configuration documents

A document is a sequence of lines that open a table, open another element of a list of tables,
or give a key a value. Keys are parts joined by dots. Values are scalars, lists, and tables
written in braces. Blank lines and comments are skipped, and so they are inside brackets and
braces.
-/

namespace Tapestry.Toml

/-- The parts of a key. -/
abbrev Key := List Text

/-- A value as it is written. -/
inductive Value where
  | string (contents : Text)
  | integer (n : Int)
  | boolean (b : Bool)
  | float
  | moment
  | array (items : List Value)
  | inline (entries : List (Key × Value))

/-- A line that says something. -/
inductive Line where
  /-- What follows belongs to this table. -/
  | table (key : Key)
  /-- What follows belongs to a new element of this list of tables. -/
  | element (key : Key)
  /-- A key has a value. -/
  | entry (key : Key) (value : Value)

/-! ## Blanks and keys -/

/-- Drop spaces and tabs at the front. -/
def skipBlanks (t : Text) : Text := t.dropWhile Byte.isBlank

/-- Drop white space, line ends and comments at the front. -/
def skipLines (inComment : Bool) : Text → Text
  | [] => []
  | b :: rest =>
    if inComment then skipLines (b != 10) rest
    else if isGap b then skipLines false rest
    else if b = 35 then skipLines true rest
    else b :: rest

/-- What follows the end of a line, if only blanks and a comment stand before it. -/
def endLine? (t : Text) : Option Text :=
  match skipBlanks t with
  | [] => some []
  | 35 :: rest => some (rest.dropWhile (· != 10))
  | b :: rest => if isLineEnd b then some rest else none

/-- The bytes of a key part that stands without quotes. -/
def isBare (b : UInt8) : Bool := Byte.isLetter b || Byte.isDigit b || b == 95 || b == 45

/-- Read one part of a key. -/
def keyPart? (t : Text) : Option (Text × Text) :=
  match quoted? t with
  | some found => some found
  | none =>
    let part := t.takeWhile isBare
    if part.isEmpty then none else some (part, t.drop part.length)

/-- Read a key up to the byte that ends it. -/
def key? (stop : UInt8) : (fuel : Nat) → Text → Option (Key × Text)
  | 0, _ => none
  | fuel + 1, t => do
    let (part, t) ← keyPart? (skipBlanks t)
    match skipBlanks t with
    | 46 :: rest =>
      let (more, rest) ← key? stop fuel rest
      return (part :: more, rest)
    | b :: rest => if b = stop then return ([part], rest) else none
    | [] => none

/-! ## Values -/

/-- Read a number or a moment. -/
def number? (t : Text) : Option (Value × Text) :=
  let run := t.takeWhile (inRun 10)
  let rest := t.drop run.length
  match rest.head? with
  | some b =>
    if (b == 45 || b == 58) && run.all Byte.isDigit then
      let span := t.takeWhile inMoment
      if isMoment (Text.dropRight (· == 32) span) then some (.moment, t.drop span.length) else none
    else if b == 46 || b == 101 || b == 69 then
      let span := t.takeWhile inFloat
      if isFloat span then some (.float, t.drop span.length) else none
    else (natural? run).bind fun digits =>
      (Number.inRange? (Number.ofDigits digits)).map fun n => (.integer n, rest)
  | none => (natural? run).bind fun digits =>
      (Number.inRange? (Number.ofDigits digits)).map fun n => (.integer n, rest)

/-- Read a number after its sign. A sign goes with decimal numbers only. -/
def signed? (negative : Bool) (t : Text) : Option (Value × Text) :=
  let run := t.takeWhile (inRun 10)
  let rest := t.drop run.length
  if rest.head? = some 46 ∨ rest.head? = some 101 ∨ rest.head? = some 69 then
    let span := t.takeWhile inFloat
    if isFloat span then some (.float, t.drop span.length) else none
  else do
    let digits ← natural? run
    let n : Int := Number.ofDigits digits
    let n ← Number.inRange? (if negative then -n else n)
    return (.integer n, rest)

/-- What follows a word at the front. -/
def word? (word : Text) (t : Text) : Option Text :=
  if word.isPrefixOf t then some (t.drop word.length) else none

/-- Read infinity or the value that is no number. -/
def special? (t : Text) : Option (Value × Text) :=
  ((word? "inf" t).or (word? "nan" t)).map fun rest => (.float, rest)

/-- Read a value that is neither a list nor a table. -/
def scalar? (t : Text) : Option (Value × Text) :=
  let based (base : Nat) (rest : Text) := (based? base rest).map fun (n, rest) => (Value.integer n, rest)
  match t with
  | 34 :: _ | 39 :: _ => (string? t).map fun (contents, rest) => (.string contents, rest)
  | 48 :: 120 :: rest => based 16 rest
  | 48 :: 111 :: rest => based 8 rest
  | 48 :: 98 :: rest => based 2 rest
  | 43 :: rest => (special? rest).or (signed? false rest)
  | 45 :: rest => (special? rest).or (signed? true rest)
  | _ =>
    match word? "true" t, word? "false" t with
    | some rest, _ => some (.boolean true, rest)
    | _, some rest => some (.boolean false, rest)
    | none, none => (special? t).or (number? t)

mutual

/-- Read a value. -/
def value? : (fuel : Nat) → Text → Option (Value × Text)
  | 0, _ => none
  | fuel + 1, t =>
    match skipBlanks t with
    | 91 :: rest => (items? fuel rest).map fun (items, rest) => (.array items, rest)
    | 123 :: rest => (entries? fuel rest).map fun (entries, rest) => (.inline entries, rest)
    | t => scalar? t

/-- Read the items of a list after its bracket or after a comma. -/
def items? : (fuel : Nat) → Text → Option (List Value × Text)
  | 0, _ => none
  | fuel + 1, t =>
    match skipLines false t with
    | 93 :: rest => some ([], rest)
    | t => do
      let (item, t) ← value? fuel t
      match skipLines false t with
      | 44 :: rest =>
        let (items, rest) ← items? fuel rest
        return (item :: items, rest)
      | 93 :: rest => return ([item], rest)
      | _ => none

/-- Read the entries of a table after its brace or after a comma. -/
def entries? : (fuel : Nat) → Text → Option (List (Key × Value) × Text)
  | 0, _ => none
  | fuel + 1, t =>
    match skipLines false t with
    | 125 :: rest => some ([], rest)
    | t => do
      let (key, t) ← key? 61 (t.length + 1) t
      let (value, t) ← value? fuel t
      match skipLines false t with
      | 44 :: rest =>
        let (entries, rest) ← entries? fuel rest
        return ((key, value) :: entries, rest)
      | 125 :: rest => return ([(key, value)], rest)
      | _ => none

end

/-! ## Documents -/

/-- Read one line that says something, and what follows it. -/
def line? (t : Text) : Option (Line × Text) := do
  let fuel := t.length + 1
  match t with
  | 91 :: 91 :: rest =>
    let (key, rest) ← key? 93 fuel rest
    let rest ← endLine? (← byte? 93 rest)
    return (.element key, rest)
  | 91 :: rest =>
    let (key, rest) ← key? 93 fuel rest
    let rest ← endLine? rest
    return (.table key, rest)
  | _ =>
    let (key, rest) ← key? 61 fuel t
    let (value, rest) ← value? fuel rest
    let rest ← endLine? rest
    return (.entry key value, rest)

/-- Read lines until the text ends. -/
def lines? : (fuel : Nat) → Text → Option (List Line)
  | 0, _ => none
  | fuel + 1, t =>
    match skipLines false t with
    | [] => some []
    | t => do
      let (line, rest) ← line? t
      return line :: (← lines? fuel rest)

/-- Whether a text may be a document: well formed, and without control characters other than
tabs, line feeds, and returns before line feeds. -/
def isClean (t : Text) : Bool :=
  let returns := (t.zip (t.drop 1 ++ [0])).all fun (b, next) => b != 13 || next == 10
  Utf8.valid t && returns && t.all fun b => (32 ≤ b || b == 9 || isLineEnd b) && b != 127

/-- The text after a byte order mark. -/
def dropMark : Text → Text
  | 0xFF :: 0xFE :: rest => rest
  | 0xFE :: 0xFF :: rest => rest
  | 0xEF :: 0xBB :: 0xBF :: rest => rest
  | t => t

/-- The lines of a document. -/
def read? (t : Text) : Option (List Line) :=
  let t := dropMark t
  if isClean t then lines? (t.length + 1) t else none

end Tapestry.Toml

import Tapestry.Value

/-!
# Reading values

Each kind has its own grammar over the bytes of a word. A word outside the grammar is a
fault that blames the word.
-/

namespace Tapestry.Value

/-- A letter, then letters, digits and underscores. -/
def isIdentifier (text : Text) : Bool :=
  match text with
  | [] => false
  | first :: rest =>
    Byte.isLetter first && rest.all fun b => Byte.isLetter b || Byte.isDigit b || b == 95

/-- Read a decimal integer with an optional sign. -/
def readInt (token : Token) : Except Fault Int :=
  match Number.int? token.text with
  | some n => .ok n
  | none => .error (.blame .intParse token ("cannot read `" ++ token.text ++ "` as a number"))

/-- Read a name. -/
def readIdentifier (token : Token) : Except Fault Text :=
  if isIdentifier token.text then .ok token.text
  else .error (.blame .identifierName token ("`" ++ token.text ++ "` is not a valid identifier"))

/-- The digits of a word that is a colon and digits. -/
def cellDigits? (text : Text) : Option Nat :=
  match text with
  | 58 :: digits => Number.nat? digits
  | _ => none

/-- Read an address: a colon and a cell index, or the name of an address variable. -/
def readAddress (token : Token) : Except Fault Datum :=
  match cellDigits? token.text with
  | some index =>
    if Number.fits index then .ok (.cell index)
    else .error (.blame .address token ("address `" ++ token.text ++ "` is out of range"))
  | none =>
    if isIdentifier token.text then .ok (.reference token.text)
    else
      .error (.blame .address token
        ("expected `:<int>` or an address variable, found `" ++ token.text ++ "`"))

/-- Both quote marks may wrap a string. -/
def isQuote (b : UInt8) : Bool := b == 34 || b == 39

/-- The bytes between a matching pair of quotes. -/
def unwrap? (text : Text) : Option Text :=
  match text with
  | quote :: rest =>
    if isQuote quote && rest.getLast? == some quote then some rest.dropLast else none
  | [] => none

/-- Read a quoted string. -/
def readStr (token : Token) : Except Fault Text :=
  match unwrap? token.text with
  | some contents => .ok contents
  | none =>
    .error (.blame .strParse token ("string must be wrapped in quotes, found `" ++ token.text ++ "`"))

/-- Read the name of a kind. -/
def readKind (token : Token) : Except Fault Kind :=
  match Kind.all.find? (·.name == token.text) with
  | some kind => .ok kind
  | none => .error (.blame .typeName token ("unknown type `" ++ token.text ++ "`"))

/-- Read the name of a lifetime. -/
def readLifetime (token : Token) : Except Fault Lifetime :=
  match Lifetime.all.find? (·.name == token.text) with
  | some lifetime => .ok lifetime
  | none =>
    .error (.blame .functionLifeTime token
      ("unknown lifetime `" ++ token.text ++ "` (want global, local or parent)"))

/-- Read the content of a word as a given kind. -/
def readDatum (kind : Kind) (token : Token) : Except Fault Datum :=
  match kind with
  | .int => .int <$> readInt token
  | .identifier => .identifier <$> readIdentifier token
  | .address => readAddress token
  | .str => .str <$> readStr token
  | .typeName => .kind <$> readKind token
  | .lifetime => .lifetime <$> readLifetime token
  | .unknown _ => .error (.blame .typeName token ("no parser for " ++ kind.name))

/-- Read a word as a value of a given kind. -/
def read (kind : Kind) (token : Token) : Except Fault Value :=
  (readDatum kind token).map fun datum => { datum, token }

end Tapestry.Value

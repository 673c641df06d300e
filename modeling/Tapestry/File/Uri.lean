import Tapestry.File.Path
import Tapestry.Text.Number
import Tapestry.Text.Utf8

/-!
# File locators

An editor names a document by a locator: a scheme, a colon, and for files two slashes, an
optional host and a path, in which a percent sign and two hexadecimal digits stand for a byte. A
question mark begins a query and a number sign a fragment; neither is part of the path. A text that
is no well-formed locator of a file names the document by itself.
-/

namespace Tapestry.Uri

/-- The percent sign. -/
def percent : UInt8 := 37

/-- Replace escapes by the bytes they stand for. An escape that is cut short, or whose digits are
not hexadecimal, spoils the text. -/
def unescape? : Text → Option Text
  | [] => some []
  | b :: rest =>
    if b = percent then
      match rest with
      | high :: low :: rest => do
        let high ← Byte.hexValue? high
        let low ← Byte.hexValue? low
        return UInt8.ofNat (16 * high + low) :: (← unescape? rest)
      | _ => none
    else (b :: ·) <$> unescape? rest

/-- Whether a byte may stand in a path as it is. -/
def isPlain (b : UInt8) : Bool :=
  Byte.isDigit b || Byte.isLetter b || (Text.ofString "-_.~$&+,/:;=@").contains b

/-- Escape the bytes that may not stand in a path. -/
def escape (path : Text) : Text :=
  path.flatMap fun b => if isPlain b then [b] else percent :: Number.hexUpper 2 b.toNat

/-! ## Hosts -/

/-- Whether a byte may stand in a host as it is. -/
def isHostByte (b : UInt8) : Bool :=
  128 ≤ b || Byte.isDigit b || Byte.isLetter b || (Text.ofString "!$&'()*+,;=:[]<>\"-_.~").contains b

/-- Whether a stretch of a host is well formed. `admits` tells which bytes may be escaped besides
the percent sign. -/
def isHostText (admits : UInt8 → Bool) : Text → Bool
  | [] => true
  | b :: rest =>
    if b = percent then
      match rest with
      | high :: low :: rest =>
        match Byte.hexValue? high, Byte.hexValue? low with
        | some high, some low =>
          let byte := UInt8.ofNat (16 * high + low)
          (byte = percent || admits byte) && isHostText admits rest
        | _, _ => false
      | _ => false
    else isHostByte b && isHostText admits rest

/-- Whether a text is empty, or a colon and digits. -/
def isColonDigits : Text → Bool
  | [] => true
  | b :: digits => b = 58 && digits.all Byte.isDigit

/-- Divide a text at the last byte of a value. The byte begins the second part. -/
def splitLast? (byte : UInt8) (t : Text) : Option (Text × Text) :=
  let tail := (t.reverse.takeWhile (· != byte)).reverse
  if tail.length = t.length then none
  else
    let front := t.length - tail.length - 1
    some (t.take front, t.drop front)

/-- What stands before the first escaped percent sign, and the rest from there on. -/
def splitZone : Text → Text × Text
  | [] => ([], [])
  | b :: rest =>
    if (Text.ofString "%25").isPrefixOf (b :: rest) then ([], b :: rest)
    else let (front, zone) := splitZone rest; (b :: front, zone)

/-- Whether a byte lies outside the first half of the bytes. -/
def isHigh (b : UInt8) : Bool := 128 ≤ b

/-- Whether an address in brackets is well formed, up to the closing bracket. A zone may stand
behind an escaped percent sign. -/
def isAddress (address : Text) : Bool :=
  let (front, zone) := splitZone address
  isHostText isHigh front &&
    isHostText (fun b => b = 32 || (b < 128 && isHostByte b)) zone

/-- Whether a host is well formed. -/
def isHost (host : Text) : Bool :=
  if host.head? = some 91 then
    match splitLast? 93 host with
    | none => false
    | some (address, rest) => isColonDigits (rest.drop 1) && isAddress address
  else
    isHostText isHigh host &&
      match splitLast? 58 host with
      | none => true
      | some (_, number) => isColonDigits number

/-- Whether the words about a user before a host are well formed. -/
def isUser (user : Text) : Bool :=
  (unescape? user).isSome && user.all fun b =>
    Byte.isDigit b || Byte.isLetter b || (Text.ofString "-._:~!$&'()*+,;=%@").contains b

/-- Whether what stands between two slashes and the path is well formed. -/
def isAuthority (authority : Text) : Bool :=
  match splitLast? 64 authority with
  | none => isHost authority
  | some (user, host) => isUser user && isHost (host.drop 1)

/-! ## Paths -/

/-- The scheme of file locators, with its colon. -/
def scheme : Text := "file:"

/-- The path behind the scheme, still escaped, if what stands before it is well formed. What does
not begin with a slash is no path. -/
def escapedPath? (rest : Text) : Option Text :=
  if (Text.ofString "//").isPrefixOf rest then
    let authority := (rest.drop 2).takeWhile (· != Path.slash)
    if isAuthority authority then some (rest.drop (2 + authority.length)) else none
  else if Path.isAbsolute rest then some rest
  else some []

/-- Whether a byte controls a device instead of being printed. -/
def isControl (b : UInt8) : Bool := b < 32 || b = 127

/-- The path of a well-formed file locator. -/
def filePath? (uri : Text) : Option Text := do
  let front := uri.takeWhile (· != 35)
  let fragment := uri.drop (front.length + 1)
  guard (!front.any isControl && Utf8.equalFold (front.take scheme.length) scheme)
  let path ← escapedPath? ((front.drop scheme.length).takeWhile (· != 63))
  let path ← unescape? path
  let _ ← unescape? fragment
  return path

/-- The path that a locator names, or the text itself. -/
def path (uri : Text) : Text := (filePath? uri).getD uri

/-- The locator of a path. A path that does not begin at the root is its own. -/
def ofPath (path : Text) : Text :=
  if Path.isAbsolute path then scheme ++ Text.ofString "//" ++ escape path else path

end Tapestry.Uri

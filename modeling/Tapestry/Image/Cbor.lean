import Tapestry.Text.Number
import Tapestry.Text.Utf8

/-!
# Concise binary objects

A data item is an integer, a string of bytes or of text, a list, a list of key and value pairs,
a tagged item, or a simple value. Its first byte gives the major type in the upper three bits
and its argument, or how many bytes hold the argument, in the lower five.

Writing uses the shortest argument and always states lengths. Reading also takes arguments of
any width and items of unstated length, which a break byte ends. Reading bounds the nesting and
the number of entries of an item.
-/

namespace Tapestry

/-- A data item. -/
inductive Cbor where
  /-- The integer `n`. -/
  | unsigned (n : Nat)
  /-- The integer `-1 - n`. -/
  | negative (n : Nat)
  | binary (contents : Text)
  /-- A text, in the chunks it came in. -/
  | text (chunks : List Text)
  | array (items : List Cbor)
  | map (entries : List (Cbor × Cbor))
  | tag (number : Nat) (content : Cbor)
  /-- A simple value by its number: 20 and 21 are the truth values, 22 is null, 23 undefined. -/
  | simple (number : Nat)
  /-- A floating point number by its two, four or eight bytes. -/
  | float (bits : Text)

namespace Cbor

/-- Null. -/
def null : Cbor := simple 22

/-- An integer. -/
def int (n : Int) : Cbor :=
  match n with
  | .ofNat n => unsigned n
  | .negSucc n => negative n

/-- A text in one chunk. -/
def string (t : Text) : Cbor := text [t]

/-- The byte that ends an item of unstated length. -/
def breakByte : UInt8 := 0xFF

/-! ## Writing -/

/-- Major type and shortest argument. -/
def head (major n : Nat) : Text :=
  let first (info : Nat) : UInt8 := UInt8.ofNat (major * 32 + info)
  if n < 24 then [first n]
  else if n < 0x100 then first 24 :: Number.bigEndian 1 n
  else if n < 0x10000 then first 25 :: Number.bigEndian 2 n
  else if n < 0x100000000 then first 26 :: Number.bigEndian 4 n
  else first 27 :: Number.bigEndian 8 n

/-- A string with its length. -/
def writeString (major : Nat) (contents : Text) : Text := head major contents.length ++ contents

mutual

/-- The bytes of an item. -/
def write : Cbor → Text
  | unsigned n => head 0 n
  | negative n => head 1 n
  | binary contents => writeString 2 contents
  | text [chunk] => writeString 3 chunk
  | text chunks => (0x7F :: chunks.flatMap (writeString 3)) ++ [breakByte]
  | array items => head 4 items.length ++ writeAll items
  | map entries => head 5 entries.length ++ writeEntries entries
  | tag number content => head 6 number ++ write content
  | simple number => head 7 number
  | float bits => UInt8.ofNat (0xF8 + bits.length.log2) :: bits

/-- The bytes of items one after the other. -/
def writeAll : List Cbor → Text
  | [] => []
  | item :: rest => write item ++ writeAll rest

/-- The bytes of keys and values in turn. -/
def writeEntries : List (Cbor × Cbor) → Text
  | [] => []
  | (key, value) :: rest => write key ++ write value ++ writeEntries rest

end

/-! ## Reading -/

/-- How deep lists and maps may nest. -/
def maxLevels : Nat := 32

/-- The most entries of a list or map. -/
def maxEntries : Nat := 131072

/-- A reader takes an item from the front of the bytes and leaves the rest. -/
abbrev Reader (α : Type) := Text → Option (α × Text)

/-- A given number of bytes. -/
def take? (count : Nat) : Reader Text := fun bytes =>
  if count ≤ bytes.length then some (bytes.take count, bytes.drop count) else none

/-- The argument that the lower five bits of a first byte announce. -/
def argument? (info : Nat) : Reader Nat := fun bytes =>
  let wide (width : Nat) : Option (Nat × Text) :=
    (take? width bytes).map fun (digits, rest) => (Number.ofBigEndian digits, rest)
  if info < 24 then some (info, bytes)
  else if info = 24 then wide 1
  else if info = 25 then wide 2
  else if info = 26 then wide 4
  else if info = 27 then wide 8
  else none

/-- A given number of items. -/
def many? {α : Type} (one : Reader α) : Nat → Reader (List α)
  | 0, bytes => some ([], bytes)
  | count + 1, bytes => do
    let (item, bytes) ← one bytes
    let (items, bytes) ← many? one count bytes
    return (item :: items, bytes)

/-- Items up to a break byte, at most `limit` of them. -/
def untilBreak? {α : Type} (one : Reader α) : Nat → Reader (List α)
  | _, [] => none
  | 0, byte :: rest => if byte = breakByte then some ([], rest) else none
  | limit + 1, byte :: rest =>
    if byte = breakByte then some ([], rest)
    else do
      let (item, bytes) ← one (byte :: rest)
      let (items, bytes) ← untilBreak? one limit bytes
      return (item :: items, bytes)

/-- The entries of a list or map, in stated or unstated number. -/
def entries? {α : Type} (one : Reader α) (info : Nat) : Reader (List α) := fun bytes =>
  if info = 31 then untilBreak? one maxEntries bytes
  else do
    let (count, bytes) ← argument? info bytes
    if maxEntries < count then none else many? one count bytes

/-- A string of stated length with a given major type. -/
def chunk? (major : Nat) : Reader Text
  | [] => none
  | byte :: rest =>
    if byte.toNat / 32 = major then do
      let (length, bytes) ← argument? (byte.toNat % 32) rest
      take? length bytes
    else none

/-- The chunks of a string after its first byte. -/
def chunks? (major info : Nat) : Reader (List Text) := fun bytes =>
  if info = 31 then untilBreak? (chunk? major) bytes.length bytes
  else do
    let (length, bytes) ← argument? info bytes
    let (contents, bytes) ← take? length bytes
    return ([contents], bytes)

/-- A simple value or a floating point number after its first byte. A number below 32 has only
its short form. -/
def simple? (info : Nat) : Reader Cbor := fun bytes =>
  let wide (width : Nat) : Option (Cbor × Text) :=
    (take? width bytes).map fun (bits, rest) => (float bits, rest)
  if info = 25 then wide 2
  else if info = 26 then wide 4
  else if info = 27 then wide 8
  else do
    let (number, bytes) ← argument? info bytes
    if info = 24 ∧ number < 32 then none else return (simple number, bytes)

/-- A key and its value. -/
def pair? (one : Reader Cbor) : Reader (Cbor × Cbor) := fun bytes => do
  let (key, bytes) ← one bytes
  let (value, bytes) ← one bytes
  return ((key, value), bytes)

/-- An item that is not tagged; `nested` reads the items inside it, if there may be any. -/
def untagged? (nested : Option (Reader Cbor)) : Reader Cbor
  | [] => none
  | byte :: rest => do
    let info := byte.toNat % 32
    match byte.toNat / 32 with
    | 0 => let (n, rest) ← argument? info rest; return (unsigned n, rest)
    | 1 => let (n, rest) ← argument? info rest; return (negative n, rest)
    | 2 => let (chunks, rest) ← chunks? 2 info rest; return (binary chunks.flatten, rest)
    | 3 => let (chunks, rest) ← chunks? 3 info rest; return (text chunks, rest)
    | 4 =>
      let one ← nested
      let (items, rest) ← entries? one info rest
      return (array items, rest)
    | 5 =>
      let one ← nested
      let (pairs, rest) ← entries? (pair? one) info rest
      return (map pairs, rest)
    | 7 => simple? info rest
    | _ => none

/-- The tag numbers in front of an item, at most `limit` of them. -/
def tags? : Nat → Reader (List Nat)
  | _, [] => some ([], [])
  | limit, byte :: rest =>
    if byte.toNat / 32 = 6 then
      match limit with
      | 0 => none
      | limit + 1 => do
        let (number, bytes) ← argument? (byte.toNat % 32) rest
        let (numbers, bytes) ← tags? limit bytes
        return (number :: numbers, bytes)
    else some ([], byte :: rest)

/-- Read an item with so many levels of nesting left. Every tag around an item but the outermost
takes a level too; `spent` levels have been taken that way. -/
def item? : (levels spent : Nat) → Reader Cbor
  | 0, spent, bytes => do
    let (numbers, bytes) ← tags? (1 - spent) bytes
    let (item, bytes) ← untagged? none bytes
    return (numbers.foldr tag item, bytes)
  | levels + 1, spent, bytes => do
    let (numbers, bytes) ← tags? (levels + 2 - spent) bytes
    let spent := spent + (numbers.length - 1)
    let nested := if spent ≤ levels then some (item? levels spent) else none
    let (item, bytes) ← untagged? nested bytes
    return (numbers.foldr tag item, bytes)

/-- The item that takes all of the bytes. -/
def read? (bytes : Text) : Option Cbor :=
  match item? maxLevels 0 bytes with
  | some (item, []) => some item
  | _ => none

/-! ## Contents -/

/-- Whether a tag with a meaning of its own stands on an item it may stand on: 0 on a text, 1 on
a number, 2 and 3 on bytes. -/
def admits (number : Nat) (content : Cbor) : Bool :=
  match number, content with
  | 0, text _ => true
  | 0, _ => false
  | 1, unsigned _ | 1, negative _ | 1, float _ => true
  | 1, _ => false
  | 2, binary _ | 3, binary _ => true
  | 2, _ | 3, _ => false
  | _, _ => true

/-- The item inside tags. Bytes with tag 2 or 3 are an integer. -/
def untag? : Cbor → Option Cbor
  | tag number content =>
    if admits number content then
      match number, content with
      | 2, binary digits => some (unsigned (Number.ofBigEndian digits))
      | 3, binary digits => some (negative (Number.ofBigEndian digits))
      | _, _ => untag? content
    else none
  | item => some item

/-- Null and undefined stand for an absent item. -/
def isAbsent : Cbor → Bool
  | simple number => number == 22 || number == 23
  | _ => false

/-- The integer an item gives. Simple values without a meaning count as their number. -/
def int? : Cbor → Option Int
  | unsigned n => some n
  | negative n => some (-1 - n)
  | simple number => if 20 ≤ number ∧ number ≤ 23 then none else some number
  | _ => none

/-- The text an item gives, if all its chunks are well formed. -/
def text? : Cbor → Option Text
  | text chunks => if chunks.all Utf8.valid then some chunks.flatten else none
  | _ => none

/-- The items of a list. -/
def array? : Cbor → Option (List Cbor)
  | array items => some items
  | _ => none

/-- The entries of a map. -/
def map? : Cbor → Option (List (Cbor × Cbor))
  | map entries => some entries
  | _ => none

end Cbor

end Tapestry

import Tapestry.Image.Layout

/-!
# The codec for images

The codec that the program runs with. It writes the layout of an image in the shortest form. It reads a
map in any form, where a missing entry reads as nothing.
-/

namespace Tapestry

namespace Cbor

/-- The integer key an item is, or the text of it spells. Other keys are refused. -/
def key? : Cbor → Option Text
  | unsigned n => some (Number.nat n)
  | negative n => if n < 0x8000000000000000 then some (Number.int (-1 - n)) else none
  | text chunks => (text chunks).text?
  | _ => none

/-- The entries of a map by the text of their keys; an absent map has none. -/
def fields? (item : Cbor) : Option (List (Text × Cbor)) := do
  let item ← item.untag?
  if item.isAbsent then return []
  else (← item.map?).mapM fun (key, value) => (key? key).map fun name => (name, value)

/-- Read the first entry with a key; a missing or absent one reads as the default. -/
def field? {α : Type} (read : Cbor → Option α) (default : α) (fields : List (Text × Cbor))
    (key : Nat) : Option α :=
  match fields.lookup (Number.nat key) with
  | none => some default
  | some item => do
    let item ← item.untag?
    if item.isAbsent then return default else read item

/-- An integer within bounds. -/
def within? (low high : Int) (item : Cbor) : Option Int := do
  let n ← item.int?
  if low ≤ n ∧ n ≤ high then return n else none

/-- An integer that fits a signed 64-bit word. -/
def word? : Cbor → Option Int := within? Number.least Number.greatest

end Cbor

/-- Read an instruction. -/
def Instruction.ofCbor? (item : Cbor) : Option Instruction := do
  let fields ← item.fields?
  let op ← Cbor.field? (Cbor.within? 0 255) 0 fields 1
  let arg ← Cbor.field? Cbor.word? 0 fields 2
  let comment ← Cbor.field? Cbor.text? [] fields 3
  return ⟨.ofByte (UInt8.ofNat op.toNat), .ofInt arg, comment⟩

/-- Read a location. -/
def Location.ofCbor? (item : Cbor) : Option Location := do
  let fields ← item.fields?
  let file ← Cbor.field? Cbor.text? [] fields 1
  let line ← Cbor.field? Cbor.word? 0 fields 2
  let column ← Cbor.field? Cbor.word? 0 fields 3
  return ⟨file, line, column⟩

namespace Image

/-- A list of items, each read the same way. -/
def listOf? {α : Type} (read : Cbor → Option α) (item : Cbor) : Option (Option (List α)) := do
  return some (← (← item.array?).mapM read)

/-- Read an image of any version. -/
def ofCbor? (item : Cbor) : Option Image := do
  let fields ← item.fields?
  let version ← Cbor.field? Cbor.word? 0 fields 1
  let buildId ← Cbor.field? Cbor.text? [] fields 2
  let source ← Cbor.field? Cbor.text? [] fields 3
  let created ← Cbor.field? Cbor.word? 0 fields 4
  let code ← Cbor.field? (listOf? Instruction.ofCbor?) none fields 5
  let locations ← Cbor.field? (listOf? Location.ofCbor?) none fields 6
  return { version, buildId, source, created, code, locations }

/-- The image that bytes hold. -/
def ofBytes (bytes : Text) : Except Text Image :=
  match (Cbor.read? bytes).bind ofCbor? with
  | none => .error "cbor: malformed data"
  | some image => .ok image

instance : Codec := ⟨fun image => .ok image.toCbor.write, ofBytes⟩

end Image

end Tapestry

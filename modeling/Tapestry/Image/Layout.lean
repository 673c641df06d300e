import Tapestry.Image
import Tapestry.Image.Cbor

/-!
# The layout of images

An image is laid out as a map with small integers for keys, and so are the instructions and locations
in it. Some entries are left out when they hold nothing.
-/

namespace Tapestry

/-- An entry that is left out when it holds nothing. -/
def Cbor.optional (holds : Bool) (key : Nat) (value : Cbor) : List (Cbor × Cbor) :=
  if holds then [(unsigned key, value)] else []

/-- An instruction as a map. -/
def Instruction.toCbor (instruction : Instruction) : Cbor :=
  .map ([(.unsigned 1, .unsigned instruction.op.toByte.toNat)] ++
    Cbor.optional (instruction.arg != 0) 2 (.int instruction.arg.toInt) ++
    Cbor.optional (!instruction.comment.isEmpty) 3 (.string instruction.comment))

/-- A location as a map. -/
def Location.toCbor (location : Location) : Cbor :=
  .map (Cbor.optional (!location.file.isEmpty) 1 (.string location.file) ++
    [(.unsigned 2, .int location.line), (.unsigned 3, .int location.column)])

namespace Image

/-- The image as a map. -/
def toCbor (image : Image) : Cbor :=
  let locations := image.locations.getD []
  .map ([(.unsigned 1, .int image.version), (.unsigned 2, .string image.buildId)] ++
    Cbor.optional (!image.source.isEmpty) 3 (.string image.source) ++
    Cbor.optional (image.created != 0) 4 (.int image.created) ++
    [(.unsigned 5, image.code.elim .null fun code => .array (code.map Instruction.toCbor))] ++
    Cbor.optional (!locations.isEmpty) 6 (.array (locations.map Location.toCbor)))

end Image

end Tapestry

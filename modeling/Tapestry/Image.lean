import Tapestry.Code.Instruction

/-!
# Images

An image is a program in storage: the instructions, where they come from, and when and from
what they were built. Only images of the current version are read.

How an image becomes bytes is left open: everything here works with any codec.
-/

namespace Tapestry

/-- A program in storage. -/
structure Image where
  /-- The version of the format. -/
  version : Int
  /-- A name for the build that made the image. -/
  buildId : Text
  /-- The main source unit. -/
  source : Text
  /-- When the image was made, in seconds. -/
  created : Int
  /-- The program, if there is one. -/
  code : Option (List Instruction)
  /-- Where each instruction comes from, if that is known. -/
  locations : Option (List Location)
  deriving DecidableEq, Repr

/-- A codec for images. It gives the bytes of an image, and the image, of whatever version, that bytes
hold, or it says why there is none. -/
class Image.Codec where
  marshal : Image → Except Text Text
  unmarshal : Text → Except Text Image

/-- Why bytes are no image. -/
inductive ImageFault where
  /-- The bytes do not hold an image of any version. -/
  | malformed (complaint : Text)
  /-- The image has a version that is not understood. -/
  | version (number : Int)
  deriving DecidableEq, Repr

/-- What an image fault says. -/
def ImageFault.message : ImageFault → Text
  | malformed complaint => "bytecode: unmarshal image: " ++ complaint
  | version number => "bytecode: unsupported image version: " ++ Number.int number

namespace Image

/-- The version of the format. -/
def currentVersion : Int := 1

section Storage

variable [Codec]

/-- The bytes of an image, or why it has none. -/
def write (image : Image) : Except Text Text := Codec.marshal image

/-- Read an image of the current version. -/
def read (bytes : Text) : Except ImageFault Image :=
  match Codec.unmarshal bytes with
  | .error complaint => .error (.malformed complaint)
  | .ok image => if image.version = currentVersion then .ok image else .error (.version image.version)

end Storage

/-- A list, unless it is empty. -/
def unlessEmpty {α : Type} (items : List α) : Option (List α) := if items.isEmpty then none else some items

/-- The instructions of an image. -/
def program (image : Image) : List Instruction := image.code.getD []

end Image

end Tapestry

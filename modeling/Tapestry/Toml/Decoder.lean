import Tapestry.Manifest
import Tapestry.Toml.Definitions

/-!
# Decoding project files

The decoder of project files that the program runs with. The tables of a document and their keys are
matched with the settings in letters of either case.
-/

namespace Tapestry.Toml

/-- What the keys with a name, in letters of either case, lead to. -/
def Entries.named (entries : Entries) (name : Text) : List Tree :=
  (entries.filter fun (key, _) => Utf8.equalFold name key).map (·.2)

/-- The entries of a table with a name; none if there is no such table. -/
def Entries.section? (entries : Entries) (name : Text) : Option Entries := do
  let tables ← (entries.named name).mapM fun
    | .table entries => some entries
    | _ => none
  return tables.flatten

/-- The last value with a name; the default if there is none. -/
def Entries.field? {α : Type} (read : Tree → Option α) (default : α) (entries : Entries)
    (name : Text) : Option α := do
  let values ← (entries.named name).mapM read
  return values.getLast?.getD default

/-- The contents of a string. -/
def Tree.string? : Tree → Option Text
  | .leaf (.string contents) => some contents
  | _ => none

/-- The value of an integer. -/
def Tree.integer? : Tree → Option Int
  | .leaf (.integer n) => some n
  | _ => none

/-- The contents of a list of strings. -/
def Tree.strings? : Tree → Option (List Text)
  | .leaf (.array items) => items.mapM fun
    | .string contents => some contents
    | _ => none
  | _ => none

/-- The tables of a project file and their keys. -/
def schema : List (Text × List Text) :=
  [("project", ["name", "version"]), ("source", ["dirs", "entry"]), ("compiler", ["max-depth"]),
    ("vm", ["eof", "max-steps"]), ("build", ["output", "image", "cache"])]

/-- Whether a key has a meaning. -/
def isKnown : Key → Bool
  | [table] => schema.any fun (name, _) => Utf8.equalFold name table
  | [table, key] => schema.any fun (name, keys) =>
      Utf8.equalFold name table && keys.any fun field => Utf8.equalFold field key
  | _ => false

/-- The settings that the definitions of a text give. -/
def settings? (defs : Definitions) : Option Settings := do
  let string := Entries.field? Tree.string? []
  let integer := Entries.field? Tree.integer? 0
  let project ← defs.root.section? "project"
  let source ← defs.root.section? "source"
  let compiler ← defs.root.section? "compiler"
  let vm ← defs.root.section? "vm"
  let build ← defs.root.section? "build"
  return {
    name := ← string project "name"
    version := ← string project "version"
    sources := ← Entries.field? Tree.strings? [] source "dirs"
    entry := ← string source "entry"
    maxDepth := ← integer compiler "max-depth"
    eof := ← string vm "eof"
    maxSteps := ← integer vm "max-steps"
    output := ← string build "output"
    image := ← string build "image"
    cache := ← string build "cache" }

/-- The settings of a text and the keys that stand for none of them. -/
def decode (t : Text) : Except Text (Settings × List Text) :=
  match (Definitions.read? t).bind fun defs => (settings? defs).map (defs.order, ·) with
  | none => .error "toml: malformed document"
  | some (order, settings) => .ok (settings, (order.filter (!isKnown ·)).map Key.render)

instance : Manifest.Decoder := ⟨decode⟩

end Tapestry.Toml

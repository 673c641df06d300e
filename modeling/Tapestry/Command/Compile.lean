import Tapestry.Cache.Store
import Tapestry.Code.Listing
import Tapestry.Command.Options
import Tapestry.Command.Outcome
import Tapestry.Fixture
import Tapestry.Manifest

/-!
# Compiling

The main command takes a program from an image, from the cache or from its source, writes what
was asked for, and may run it. Options win over the project file that is nearest to the source.
-/

namespace Tapestry

/-- What an image says about its making besides the program. -/
structure Stamp where
  buildId : Text
  created : Int

/-- Sixteen random bytes as a build id: a version and a variant are put in, and hyphens divide the
digits. -/
def Stamp.idOfBytes (bytes : Text) : Text :=
  let marked := bytes.mapIdx fun i b =>
    if i = 6 then b &&& 0x0F ||| 0x40 else if i = 8 then b &&& 0x3F ||| 0x80 else b
  let part (first count : Nat) : Text := Number.hexBytes ((marked.drop first).take count)
  Text.join "-" [part 0 4, part 4 2, part 6 2, part 8 2, part 10 6]

/-- The image of a build. -/
def Build.image (build : Build) (stamp : Stamp) : Image :=
  { version := Image.currentVersion
    buildId := stamp.buildId
    source := build.mainFile
    created := stamp.created
    code := Image.unlessEmpty build.code
    locations := Image.unlessEmpty build.locations }

namespace Command

/-- What is to be done: options with the project's defaults filled in. -/
structure Job where
  options : Options
  source : Text
  manifest : Option Manifest

/-- A program, and its build if it was just built. -/
structure Product where
  image : Image
  build : Option Build

/-- Fill in what the options leave to the project. -/
def Options.complete (options : Options) (manifest : Manifest) : Options :=
  { options with
    image := Manifest.orElse options.image manifest.imagePath
    output := if options.emit then Manifest.orElse options.output manifest.outputPath else options.output
    cache := Manifest.orElse options.cache manifest.cachePath }

/-- Leave the cache out if the options say so. -/
def Options.settleCache (options : Options) : Options :=
  if options.noCache then { options with cache := [] } else options

namespace Job

/-- Find the project of a source, and its main unit if no source is given. -/
def prepare [Manifest.Decoder] (disk : Disk) (options : Options) (source : Text) : Except Text Job :=
  let start : Text := if source.isEmpty then "." else Path.directory source
  match Manifest.find disk start with
  | .error fault => .error ("loading manifest: " ++ fault.message)
  | .ok none =>
    if source.isEmpty then
      .error ("no source file given and no " ++ Manifest.fileName ++ " found")
    else .ok { options := options.settleCache, source, manifest := none }
  | .ok (some manifest) =>
    .ok {
      options := (options.complete manifest).settleCache
      source := if source.isEmpty then manifest.entryPath disk else source
      manifest := some manifest }

/-- How the program is built. -/
def buildOptions (job : Job) : BuildOptions :=
  let base : BuildOptions := job.manifest.elim {} Manifest.buildOptions
  { search :=
      if job.options.libraries.isEmpty then base.search
      else base.search ++ Path.splitList job.options.libraries
    maxDepth := if 0 < job.options.maxDepth then job.options.maxDepth.toNat else base.maxDepth }

/-- How the program is run, apart from its input. -/
def machineOptions (job : Job) : Except Text MachineOptions := do
  let base : MachineOptions := job.manifest.elim {} fun manifest => manifest.machineOptions []
  let policy ← if job.options.eof.isEmpty then .ok base.policy else EofPolicy.read job.options.eof
  let limit := if 0 < job.options.maxSteps then job.options.maxSteps.toNat else base.limit
  return { base with policy, limit }

/-! ## The program -/

/-- Why there is no program. -/
inductive LoadFault where
  | expansion (error : Error)
  | other (message : Text)

/-- What is printed about a program that cannot be had: a report, if it is at fault itself. -/
def LoadFault.lines : LoadFault → Text
  | expansion error =>
    match error.failure with
    | .fault _ => error.report ++ "\n"
    | .trouble trouble => Text.ofString "Error: " ++ trouble.message ++ "\n"
  | other message => Text.ofString "Error: " ++ message ++ "\n"

/-- What an image file ends in. -/
def imageSuffix : Text := ".brimg"

/-- Take the program from an image file. -/
def loadImage [Image.Codec] (disk : Disk) (path : Text) : Except LoadFault Product :=
  match disk.read path with
  | .error fault => .error (.other fault.message)
  | .ok bytes =>
    match Image.read bytes with
    | .error fault => .error (.other (path ++ ": " ++ fault.message))
    | .ok image => .ok { image, build := none }

/-- Build the program. -/
def compile (job : Job) (disk : Disk) (stamp : Stamp) : Except LoadFault (Product × Build) :=
  match disk.build job.buildOptions job.source with
  | .error error => .error (.expansion error)
  | .ok build => .ok ({ image := build.image stamp, build := some build }, build)

section Cached

variable [Image.Codec] [Database]

/-- Build the program and keep it in the cache, if that can be done. -/
def rebuild (job : Job) (store : Store) (disk : Disk) (name : Text) (stamp : Stamp) :
    Disk × Except LoadFault Product :=
  match job.compile disk stamp with
  | .error fault => (disk, .error fault)
  | .ok (product, build) =>
    let (_, _, disk) := store.put disk name product.image build.files
    (disk, .ok product)

/-- Take the program from the cache, or build it and keep it there. -/
def loadCached (job : Job) (disk : Disk) (stamp : Stamp) : Disk × Except LoadFault Product :=
  let name := disk.absolute job.source
  match Store.openAt disk job.options.cache with
  | (.error fault, disk) => (disk, .error (.other fault.message))
  | (.ok store, disk) =>
    match store.get disk name with
    | .ok image => (disk, .ok { image, build := none })
    | .error .notFound => job.rebuild store disk name stamp
    | .error (.stale _) => job.rebuild store disk name stamp
    | .error fault => (disk, .error (.other fault.message))

/-- Get the program. The cache does not serve a request for the compile tree. -/
def load (job : Job) (disk : Disk) (stamp : Stamp) : Disk × Except LoadFault Product :=
  if imageSuffix.isSuffixOf job.source then (disk, loadImage disk job.source)
  else if !job.options.cache.isEmpty && !job.options.tree then job.loadCached disk stamp
  else (disk, (job.compile disk stamp).map (·.1))

end Cached

/-! ## Results -/

/-- Whether the program text is among the results; it is if nothing else is. -/
def emits (options : Options) : Bool :=
  options.emit || !(options.tree || options.listing || !options.image.isEmpty || options.run)

/-- Print the compile tree if asked to. -/
def writeTree (job : Job) (product : Product) (outcome : Outcome) : Except Outcome Outcome :=
  if !job.options.tree then .ok outcome
  else
    match product.build with
    | none => .error (outcome.fail "-tree needs a source file, not an image")
    | some build => .ok (outcome.print (build.dump ++ "\n"))

/-- Print a listing if asked to. -/
def writeListing (job : Job) (product : Product) (outcome : Outcome) : Outcome :=
  let image := product.image
  if job.options.listing then
    outcome.print (Listing.write image.source image.program (image.locations.getD []))
  else outcome

/-- Write a file as a result. -/
def writeResult (outcome : Outcome) (path contents : Text) : Except Outcome Outcome :=
  match writeFile outcome.disk path contents with
  | (disk, none) => .ok { outcome with disk }
  | (disk, some fault) => .error (Outcome.fail { outcome with disk } fault.message)

/-- Write an image if asked to. -/
def writeImage [Image.Codec] (job : Job) (product : Product) (outcome : Outcome) :
    Except Outcome Outcome :=
  if job.options.image.isEmpty then .ok outcome
  else
    match product.image.write with
    | .error complaint => .error (outcome.fail complaint)
    | .ok bytes => writeResult outcome job.options.image bytes

/-- Write the program text if it is among the results. -/
def writeText (job : Job) (product : Product) (outcome : Outcome) : Except Outcome Outcome :=
  if !emits job.options then .ok outcome
  else
    let text := Symbols.write product.image.program ++ "\n"
    if job.options.output.isEmpty then .ok (outcome.print text)
    else writeResult outcome job.options.output text

/-- The non-zero cells, one per line. -/
def cellLines (tape : Tape) : Text :=
  tape.indexes.flatMap fun index =>
    Text.ofString ":" ++ Number.int index ++ " = " ++ Number.nat (tape.valueAt index).toNat ++ "\n"

/-- The input of a run: a file if one is named, else what was passed in. -/
def input (job : Job) (disk : Disk) (passed : Text) : Except FileFault Input :=
  if job.options.input.isEmpty then .ok { bytes := passed }
  else
    match disk.read job.options.input with
    | .ok bytes => .ok { bytes }
    | .error fault =>
      if fault.action == "open" then .error fault
      else .ok { bytes := [], broken := some fault.message }

/-- What a run that has ended adds to an outcome. What the program wrote is printed even if it fails. -/
def conclude (job : Job) (m : Machine) (ending : Machine.Ending) (outcome : Outcome) : Outcome :=
  let outcome := outcome.print m.output.bytes.toList
  match ending with
  | .failed stop => outcome.fail stop.message
  | _ => if job.options.memory then outcome.print (Text.ofString "\n" ++ cellLines m.tape) else outcome

/-- Run the program. There is no outcome if it runs without end. -/
def execute (job : Job) (product : Product) (passed : Text) (outcome : Outcome) : Option Outcome :=
  match job.machineOptions with
  | .error complaint => outcome.fail complaint
  | .ok options =>
    match job.input outcome.disk passed with
    | .error fault => outcome.fail fault.message
    | .ok input =>
      match Machine.load product.image.program { options with input } with
      | .error unbalanced => outcome.fail unbalanced.message
      | .ok m => m.run.map fun result => job.conclude result.1 result.2 outcome

section Outcomes

variable [Image.Codec]

/-- Write the results of a program and run it if asked to. -/
def finish (job : Job) (product : Product) (passed : Text) (outcome : Outcome) : Option Outcome :=
  let written := do
    let outcome ← job.writeTree product outcome
    let outcome ← job.writeImage product (job.writeListing product outcome)
    job.writeText product outcome
  match written with
  | .error outcome => outcome
  | .ok outcome => if job.options.run then job.execute product passed outcome else outcome

/-- Get the program and do with it what the options say. -/
def run [Database] (job : Job) (disk : Disk) (stamp : Stamp) (passed : Text) : Option Outcome :=
  match job.load disk stamp with
  | (disk, .error fault) => Outcome.complain { disk } 1 fault.lines
  | (disk, .ok product) => job.finish product passed { disk }

end Outcomes

end Job

/-- Compile as a command line says. There is no outcome if a program runs without end. -/
def compile [Manifest.Decoder] [Image.Codec] [Database] (disk : Disk) (stamp : Stamp) (passed : Text)
    (args : List Text) : Option Outcome :=
  match readOptions {} args with
  | .error misuse =>
    match misuse.complaint? with
    | none => Outcome.complain { disk } 0 usage
    | some line => Outcome.complain { disk } 2 (line ++ "\n" ++ usage)
  | .ok (options, operands) =>
    if 1 < operands.length then Outcome.complain { disk } 2 usage
    else
      match Job.prepare disk options (operands.headD []) with
      | .error message => Outcome.fail { disk } message
      | .ok job => job.run disk stamp passed

end Command

end Tapestry

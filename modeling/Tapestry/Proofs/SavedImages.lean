import Tapestry.Cache.File
import Tapestry.Command
import Tapestry.Proofs.HelperEffects
import Tapestry.Proofs.StorableBuilds
import Tapestry.Proofs.TreePrinting

/-!
# Running a saved image

With a codec that conforms to the storage format, the image that was written for a source is read back
as the build of the source, so printing, listing and running it show what the source shows, and it runs
without end if the source does. The options that print and run do not look at the disk, and they are
read the same way in front of either file.

There is one limit. A codec writes a program of any length without complaint, but it refuses to read
one that is longer than it accepts, and then the image cannot be used.
-/

namespace Tapestry

/-! ## Reading what was written -/

namespace Disk

variable {disk other : Disk} {path contents : Text} {place : Place}

/-- Elements are followed the same way where all directories are kept. -/
theorem foldlM_follow_of_directories
    (h : ∀ place, disk.entry? place = some .directory → other.entry? place = some .directory)
    {elements : List Text} {last : Place} (hfollow : elements.foldlM disk.follow place = .ok last) :
    elements.foldlM other.follow place = .ok last := by
  induction elements generalizing place with
  | nil => exact hfollow
  | cons element rest ih =>
    rw [List.foldlM_cons] at hfollow
    obtain ⟨next, hnext, hrest⟩ := exists_of_bind_eq_ok hfollow
    obtain ⟨hdirectory, hgo⟩ := follow_eq_ok_iff.mp hnext
    rw [List.foldlM_cons, follow_eq_ok_iff.mpr ⟨h place hdirectory, hgo⟩]
    exact ih hrest

/-- A path leads to the same place where all directories are kept. -/
theorem locate_of_directories (hworking : other.working = disk.working)
    (h : ∀ place, disk.entry? place = some .directory → other.entry? place = some .directory)
    (hlocate : disk.locate path = .ok place) : other.locate path = .ok place := by
  unfold locate at *
  split at hlocate
  case isTrue => cases hlocate
  case isFalse hpath =>
    rw [if_neg hpath, hworking]
    obtain ⟨last, hlast, hend⟩ := exists_of_bind_eq_ok hlocate
    dsimp only
    rw [foldlM_follow_of_directories h hlast]
    change (if _ then other.follow last "." else .ok last) = _
    by_cases hslash : path.getLast? = some Path.slash
    · rw [if_pos hslash] at hend ⊢
      obtain ⟨hdirectory, hgo⟩ := follow_eq_ok_iff.mp hend
      exact follow_eq_ok_iff.mpr ⟨h last hdirectory, hgo⟩
    · rw [if_neg hslash] at hend ⊢
      exact hend

/-- A file that was written can be read. -/
theorem read_of_write (h : disk.write path contents = .ok other) : other.read path = .ok contents := by
  unfold write at h
  split at h
  case h_1 => cases h
  case h_2 place hlocate =>
    have hplace : disk.entry? place ≠ some .directory := by
      intro hdirectory
      simp [hdirectory] at h
    have hother : disk.insert place (.file contents) = other := by
      split at h
      case h_1 hdirectory => exact absurd hdirectory hplace
      case h_2 => exact Except.ok.inj h
    have hroot : place ≠ [] := fun hroot => hplace (hroot ▸ rfl)
    -- The path leads through directories only, and the file does not take the place of one.
    have hkept : ∀ directory, disk.entry? directory = some .directory →
        other.entry? directory = some .directory := by
      intro directory hdirectory
      have hne : directory ≠ place := fun hsame => hplace (hsame ▸ hdirectory)
      rw [← hother, entry?_insert hroot, if_neg hne]
      exact hdirectory
    have hworking : other.working = disk.working := by rw [← hother]; rfl
    have hentry : other.entry? place = some (.file contents) := by
      rw [← hother, entry?_insert hroot, if_pos rfl]
    rw [read_eq_ok_iff, find, locate_of_directories hworking hkept hlocate]
    simp only [bind, Except.bind, hentry]

end Disk

namespace Command

variable {words others : List Text} {name word : Text} {value : Option Text}

/-- The disk after a file was written. -/
theorem read_of_writeFile {disk : Disk} {path contents : Text}
    (h : (writeFile disk path contents).2 = none) :
    (writeFile disk path contents).1.read path = .ok contents := by
  unfold writeFile at *
  split at h
  case h_1 => cases h
  case h_2 made _ =>
    split at h
    case h_1 => cases h
    case h_2 written hwrite => exact Disk.read_of_write hwrite

/-! ## Options that print and run -/

/-- The switches among the options that print and run. -/
def presentingSwitches : List Text := ["run", "mem", "disasm", "emit"]

/-- Those that take a value. -/
def presentingValues : List Text := ["eof", "max-steps"]

/-- Words that are options which print and run, with any values. -/
inductive Presents : List Text → Prop
  | nil : Presents []
  | switch {word name value rest} (read : Word.ofText word = .option name value)
      (known : name ∈ presentingSwitches) (behind : Presents rest) : Presents (word :: rest)
  | joined {word name value rest} (read : Word.ofText word = .option name (some value))
      (known : name ∈ presentingValues) (behind : Presents rest) : Presents (word :: rest)
  | apart {word name value rest} (read : Word.ofText word = .option name none)
      (known : name ∈ presentingValues) (behind : Presents rest) : Presents (word :: value :: rest)

/-- Options that ask for nothing but printing and running. -/
structure Options.Presenting (options : Options) : Prop where
  output : options.output = []
  image : options.image = []
  tree : options.tree = false
  input : options.input = []
  maxDepth : options.maxDepth = 0
  cache : options.cache = []
  noCache : options.noCache = false
  libraries : options.libraries = []

/-- No option asks for anything else. -/
theorem Options.presenting_default : Options.Presenting {} := ⟨rfl, rfl, rfl, rfl, rfl, rfl, rfl, rfl⟩

/-- Words in front of others that do nothing but set options, and keep to those that print and run. -/
structure Sets (words : List Text) (set : Options → Except Misuse Options) : Prop where
  reads : ∀ options rest,
    readOptions options (words ++ rest) = (set options).bind fun after => readOptions after rest
  presenting : ∀ options after, options.Presenting → set options = .ok after → after.Presenting
  not_help : ∀ options, set options ≠ .error .help

/-- Words are set one list after the other. -/
theorem Sets.append {set next : Options → Except Misuse Options} (h : Sets words set)
    (h' : Sets others next) :
    Sets (words ++ others) fun options => (set options).bind next where
  reads options rest := by
    rw [List.append_assoc, h.reads]
    cases set options with
    | error misuse => rfl
    | ok middle => exact h'.reads middle rest
  presenting options after hoptions hset := by
    obtain ⟨middle, hmiddle, hafter⟩ := exists_of_bind_eq_ok hset
    exact h'.presenting middle after (h.presenting options middle hoptions hmiddle) hafter
  not_help options hset := by
    cases hmiddle : set options with
    | error misuse =>
      rw [hmiddle] at hset
      exact h.not_help options (hmiddle.trans hset)
    | ok middle =>
      rw [hmiddle] at hset
      exact h'.not_help middle hset

/-- Words behind words that only set options may do so as well. -/
theorem exists_sets_append (h : ∃ set, Sets words set) (h' : ∃ set, Sets others set) :
    ∃ set, Sets (words ++ others) set := by
  obtain ⟨set, hset⟩ := h
  obtain ⟨next, hnext⟩ := h'
  exact ⟨_, hset.append hnext⟩

/-- A switch is set. -/
theorem sets_switch (read : Word.ofText word = .option name value)
    (known : name ∈ presentingSwitches) :
    ∃ set, Sets [word] set := by
  have hknown : ∃ set : Options → Bool → Options, table.lookup name = some (.switch set) ∧
      ∀ options b, options.Presenting → (set options b).Presenting := by
    simp only [presentingSwitches, List.mem_cons, List.not_mem_nil, or_false] at known
    rcases known with rfl | rfl | rfl | rfl <;> exact ⟨_, rfl, fun _ _ h => { h with }⟩
  obtain ⟨set, hlookup, hset⟩ := hknown
  refine ⟨fun options => setSwitch options set name value, fun options rest => ?_,
    fun options after hoptions hafter => ?_, fun options hhelp => ?_⟩
  · rw [List.singleton_append, readOptions, read]
    simp only [hlookup]
    rfl
  · unfold setSwitch at hafter
    split at hafter
    case h_1 => exact Except.ok.inj hafter ▸ hset options true hoptions
    case h_2 =>
      split at hafter
      case h_1 b _ => exact Except.ok.inj hafter ▸ hset options b hoptions
      case h_2 => cases hafter
  · unfold setSwitch at hhelp
    split at hhelp
    case h_1 => cases hhelp
    case h_2 => split at hhelp <;> cases hhelp

/-- An option that takes a value is set to it. -/
theorem exists_setting (known : name ∈ presentingValues) (value : Text) :
    ∃ setting, table.lookup name = some setting ∧ (∀ set, setting ≠ .switch set) ∧
      (∀ options after, options.Presenting → setValue options setting name value = .ok after →
        after.Presenting) ∧
      ∀ options, setValue options setting name value ≠ .error .help := by
  simp only [presentingValues, List.mem_cons, List.not_mem_nil, or_false] at known
  rcases known with rfl | rfl
  · refine ⟨_, rfl, by simp, fun options after h hafter => ?_, fun options hhelp => by cases hhelp⟩
    exact Except.ok.inj hafter ▸ { h with }
  · refine ⟨_, rfl, by simp, fun options after h hafter => ?_, fun options hhelp => ?_⟩
    · unfold setValue at hafter
      cases hnumber : Number.literal value with
      | ok n =>
        simp only [hnumber] at hafter
        exact Except.ok.inj hafter ▸ { h with }
      | error problem => simp [hnumber] at hafter
    · unfold setValue at hhelp
      cases hnumber : Number.literal value <;> simp [hnumber] at hhelp

/-- An option takes its value behind an equals sign or from the next word. -/
theorem sets_value (known : name ∈ presentingValues) (value : Text) :
    (Word.ofText word = .option name (some value) → ∃ set, Sets [word] set) ∧
      (Word.ofText word = .option name none → ∃ set, Sets [word, value] set) := by
  obtain ⟨setting, hlookup, hsetting, hpresenting, hhelp⟩ := exists_setting known value
  refine ⟨fun read => ⟨fun options => setValue options setting name value, ?_, hpresenting, hhelp⟩,
    fun read => ⟨fun options => setValue options setting name value, ?_, hpresenting, hhelp⟩⟩
  all_goals
    intro options rest
    rw [List.cons_append, readOptions, read]
    cases setting with
    | switch set => exact absurd rfl (hsetting set)
    | text | number =>
      simp only [hlookup]
      rfl

/-- Options that print and run are read alike in front of any words. -/
theorem exists_sets (h : Presents words) : ∃ set, Sets words set := by
  induction h with
  | nil =>
    exact ⟨.ok, fun _ _ => rfl, fun _ _ hoptions hafter => Except.ok.inj hafter ▸ hoptions,
      fun _ hhelp => by cases hhelp⟩
  | switch read known _ ih => exact exists_sets_append (sets_switch read known) ih
  | joined read known _ ih => exact exists_sets_append ((sets_value known _).1 read) ih
  | apart read known _ ih => exact exists_sets_append ((sets_value known _).2 read) ih

/-! ## What is shown -/

/-- What a command shows: the number it ends with and what it printed on both channels. -/
def Outcome.shown (outcome : Outcome) : Nat × Text × Text :=
  (outcome.exit, outcome.printed, outcome.complained)

namespace Outcome

variable {outcome other : Outcome}

/-- Printing keeps what is shown the same. -/
theorem shown_print (h : outcome.shown = other.shown) (t : Text) :
    (outcome.print t).shown = (other.print t).shown := by
  simp only [shown, Prod.mk.injEq] at h
  simp [shown, print, h]

/-- Complaining keeps what is shown the same. -/
theorem shown_complain (h : outcome.shown = other.shown) (exit : Nat) (t : Text) :
    (outcome.complain exit t).shown = (other.complain exit t).shown := by
  simp only [shown, Prod.mk.injEq] at h
  simp [shown, complain, h]

end Outcome

namespace Job

/-- Two products show the same if they hold the same program from the same places. -/
structure SameProgram (product other : Product) : Prop where
  program : other.image.program = product.image.program
  source : other.image.source = product.image.source
  locations : other.image.locations.getD [] = product.image.locations.getD []

variable {options : Options} {product other : Product} {outcome before : Outcome}

/-- The end of a run is shown the same, whatever the program was taken from. -/
theorem shown_conclude (source path : Text) (m : Machine) (ending : Machine.Ending)
    (hbefore : outcome.shown = before.shown) :
    (conclude ⟨options, path, none⟩ m ending outcome).shown =
      (conclude ⟨options, source, none⟩ m ending before).shown := by
  have hprinted := Outcome.shown_print hbefore m.output.bytes.toList
  unfold conclude
  dsimp only
  split
  case h_1 stop => exact Outcome.shown_complain hprinted _ _
  case h_2 =>
    split
    · exact Outcome.shown_print hprinted _
    · exact hprinted

/-- Running shows the same on any disk, and ends on one just if it ends on the other. -/
theorem shown_execute (hoptions : options.Presenting) (h : SameProgram product other) (source path : Text)
    (passed : Text) (hbefore : outcome.shown = before.shown) :
    (execute ⟨options, path, none⟩ other passed outcome).map Outcome.shown =
      (execute ⟨options, source, none⟩ product passed before).map Outcome.shown := by
  have hmachine : machineOptions ⟨options, path, none⟩ = machineOptions ⟨options, source, none⟩ := rfl
  have hinput (target : Text) (disk : Disk) :
      input ⟨options, target, none⟩ disk passed = .ok { bytes := passed } := by
    simp [input, hoptions.input]
  simp only [execute, hmachine, hinput, h.program]
  cases machineOptions ⟨options, source, none⟩ with
  | error complaint => exact congrArg some (Outcome.shown_complain hbefore _ _)
  | ok machine =>
    dsimp only
    split
    case h_1 unbalanced _ => exact congrArg some (Outcome.shown_complain hbefore _ _)
    case h_2 m _ =>
      rw [Option.map_map, Option.map_map]
      exact Option.map_congr fun result _ => shown_conclude source path result.1 result.2 hbefore

variable [Image.Codec]

/-- What is asked for is shown the same on any disk. -/
theorem shown_finish (hoptions : options.Presenting) (h : SameProgram product other) (source path : Text)
    (passed : Text) (hbefore : outcome.shown = before.shown) :
    (finish ⟨options, path, none⟩ other passed outcome).map Outcome.shown =
      (finish ⟨options, source, none⟩ product passed before).map Outcome.shown := by
  have hlisted : (writeListing ⟨options, path, none⟩ other outcome).shown =
      (writeListing ⟨options, source, none⟩ product before).shown := by
    simp only [writeListing, h.program, h.source, h.locations]
    split
    · exact Outcome.shown_print hbefore _
    · exact hbefore
  have hfinish (target : Text) (product : Product) (outcome : Outcome) :
      finish ⟨options, target, none⟩ product passed outcome =
        let listed := writeListing ⟨options, target, none⟩ product outcome
        let written := if emits options then
          listed.print (Symbols.write product.image.program ++ "\n") else listed
        if options.run then execute ⟨options, target, none⟩ product passed written else some written := by
    simp only [finish, writeTree, writeImage, writeText, hoptions.tree, hoptions.image, hoptions.output]
    cases emits options <;> rfl
  simp only [hfinish, h.program]
  have hwritten := Outcome.shown_print hlisted (Symbols.write product.image.program ++ "\n")
  cases emits options <;> cases options.run
  · exact congrArg some hlisted
  · exact shown_execute hoptions h source path passed hlisted
  · exact congrArg some hwritten
  · exact shown_execute hoptions h source path passed hwritten

variable [Database]

/-- A source without a project is built as it stands, if the options leave it at that. -/
theorem load_source {disk : Disk} {source : Text} {build : Build} (hcache : options.cache = [])
    (hlibraries : options.libraries = []) (hdepth : options.maxDepth = 0)
    (hsuffix : imageSuffix.isSuffixOf source = false) (hbuild : disk.build {} source = .ok build)
    (stamp : Stamp) :
    load ⟨options, source, none⟩ disk stamp = (disk, .ok ⟨build.image stamp, some build⟩) := by
  have hbase : buildOptions ⟨options, source, none⟩ = {} := by
    simp [buildOptions, hlibraries, hdepth]
  simp [load, hsuffix, hcache, compile, hbase, hbuild, Except.map]

/-- What is shown about a source is shown about its build. -/
theorem run_source (hoptions : options.Presenting) {disk : Disk} {source : Text} {build : Build}
    (hsuffix : imageSuffix.isSuffixOf source = false) (hbuild : disk.build {} source = .ok build)
    (stamp : Stamp) (passed : Text) :
    run ⟨options, source, none⟩ disk stamp passed =
      finish ⟨options, source, none⟩ ⟨build.image stamp, some build⟩ passed { disk } := by
  rw [run, load_source hoptions.cache hoptions.libraries hoptions.maxDepth hsuffix hbuild]

section Images

variable {disk : Disk} {path bytes : Text} (hsuffix : imageSuffix.isSuffixOf path = true)
  (hread : disk.read path = .ok bytes) (options : Options) (stamp : Stamp) (passed : Text)

include hsuffix hread

/-- An image is taken from its file. -/
theorem run_image {image : Image} (himage : Image.read bytes = .ok image) :
    run ⟨options, path, none⟩ disk stamp passed =
      finish ⟨options, path, none⟩ ⟨image, none⟩ passed { disk } := by
  simp [run, load, hsuffix, loadImage, hread, himage]

/-- A file that is no image is refused. -/
theorem run_no_image {fault : ImageFault} (hfault : Image.read bytes = .error fault) :
    run ⟨options, path, none⟩ disk stamp passed =
      some (Outcome.complain { disk } 1 (LoadFault.other (path ++ ": " ++ fault.message)).lines) := by
  simp [run, load, hsuffix, loadImage, hread, hfault]

end Images

end Job

/-! ## Command lines -/

/-- The words that name commands of their own. -/
def commands : List Text := ["cache", "test", "lsp"]

/-- An option is no command. -/
theorem not_mem_commands (h : Word.ofText word = .option name value) : word ∉ commands := by
  have hoperands : ∀ command ∈ commands, Word.ofText command = .operand := by decide
  intro hmem
  cases h.symm.trans (hoperands word hmem)

/-- A word that can stand behind options and names a file. -/
structure FileWord (words : List Text) (file : Text) : Prop where
  operand : Word.ofText file = .operand
  nonempty : file ≠ []
  /-- Without options in front, the names of commands are taken. -/
  free : words = [] → file ∉ commands

section CommandLines

variable [Manifest.Decoder] [Image.Codec] [Database] {disk : Disk}

/-- A command line that does not start with the name of a command compiles. -/
theorem run_eq_compile (h : word ∉ commands) (disk : Disk) (stamp : Stamp) (passed : Text)
    (rest : List Text) :
    run disk stamp passed (word :: rest) = compile disk stamp passed (word :: rest) := by
  simp only [commands, List.mem_cons, List.not_mem_nil, or_false, not_or] at h
  simp [run, h]

/-- A command line whose options are understood is about a file, if that has no project. -/
theorem compile_of_readOptions {args : List Text} {options : Options} {file : Text}
    (hread : readOptions {} args = .ok (options, [file])) (hfile : file ≠ [])
    (hcache : options.noCache = false)
    (hproject : Manifest.find disk (Path.directory file) = .ok none) (stamp : Stamp)
    (passed : Text) :
    compile disk stamp passed args = Job.run ⟨options, file, none⟩ disk stamp passed := by
  have hprepare : Job.prepare disk options file = .ok ⟨options, file, none⟩ := by
    simp [Job.prepare, List.isEmpty_eq_false_iff.mpr hfile, hproject, Options.settleCache, hcache]
  rw [compile, hread]
  simp [hprepare]

/-- Options that print and run are not understood whatever file follows, or lead to the same options
for every file without a project. -/
theorem run_presents (h : Presents words) :
    (∃ complaint, ∀ disk stamp passed file, FileWord words file →
      run disk stamp passed (words ++ [file]) = some (Outcome.complain { disk } 2 complaint)) ∨
    ∃ options : Options, options.Presenting ∧ ∀ disk stamp passed file, FileWord words file →
      Manifest.find disk (Path.directory file) = .ok none →
        run disk stamp passed (words ++ [file]) = Job.run ⟨options, file, none⟩ disk stamp passed := by
  have hcompile (disk : Disk) (stamp : Stamp) (passed file : Text) (hfile : FileWord words file) :
      run disk stamp passed (words ++ [file]) = compile disk stamp passed (words ++ [file]) := by
    cases h with
    | nil => exact run_eq_compile (hfile.free rfl) ..
    | switch read | joined read | apart read => exact run_eq_compile (not_mem_commands read) ..
  obtain ⟨set, hset⟩ := exists_sets h
  have hread (file : Text) (hfile : FileWord words file) :
      readOptions {} (words ++ [file]) = (set {}).bind fun after => .ok (after, [file]) := by
    rw [hset.reads]
    simp only [readOptions, hfile.operand]
  -- The options have been read before the file is looked at, so it makes no difference to them.
  cases hresult : set {} with
  | error misuse =>
    cases hcomplaint : misuse.complaint? with
    | none =>
      cases misuse <;> simp [Misuse.complaint?] at hcomplaint
      exact absurd hresult (hset.not_help {})
    | some line =>
      refine .inl ⟨line ++ "\n" ++ usage, fun disk stamp passed file hfile => ?_⟩
      rw [hcompile disk stamp passed file hfile, compile, hread file hfile, hresult]
      simp [Except.bind, hcomplaint]
  | ok options =>
    have hoptions := hset.presenting {} options Options.presenting_default hresult
    refine .inr ⟨options, hoptions, fun disk stamp passed file hfile hproject => ?_⟩
    have hunderstood : readOptions {} (words ++ [file]) = .ok (options, [file]) := by
      rw [hread file hfile, hresult]
      rfl
    rw [hcompile disk stamp passed file hfile]
    exact compile_of_readOptions hunderstood hfile.nonempty hoptions.noCache hproject stamp passed

/-- An image is written without a word. -/
theorem run_save {saved : Disk} {source path bytes : Text} {build : Build} {stamp : Stamp}
    (hoperand : Word.ofText source = .operand) (hsource : source ≠ [])
    (hsuffix : Job.imageSuffix.isSuffixOf source = false) (hpath : path ≠ [])
    (hproject : Manifest.find disk (Path.directory source) = .ok none)
    (hbuild : disk.build {} source = .ok build) (hwrite : (build.image stamp).write = .ok bytes)
    (hsaved : writeFile disk path bytes = (saved, none)) (passed : Text) :
    run disk stamp passed ["-image", path, source] = some { disk := saved } := by
  have hread : readOptions {} ["-image", path, source] = .ok ({ image := path }, [source]) := by
    have hword : Word.ofText "-image" = .option "image" none := by decide
    have hlookup : table.lookup (Text.ofString "image") =
        some (.text fun o t => { o with image := t }) := rfl
    rw [readOptions, hword]
    simp only [hlookup, setValue]
    change readOptions { image := path } [source] = _
    rw [readOptions, hoperand]
  have hload : Job.load ⟨{ image := path }, source, none⟩ disk stamp =
      (disk, .ok ⟨build.image stamp, some build⟩) := Job.load_source rfl rfl rfl hsuffix hbuild stamp
  have himage : List.isEmpty path = false := List.isEmpty_eq_false_iff.mpr hpath
  have hword : Text.ofString "-image" ∉ commands := by decide
  rw [run_eq_compile hword, compile_of_readOptions hread hsource rfl hproject, Job.run, hload]
  simp [Job.finish, Job.writeTree, Job.writeListing, Job.writeImage, hwrite, Job.writeResult, himage, hsaved,
    Job.writeText, Job.emits, bind, Except.bind]

end CommandLines

/-! ## Saving and running -/

/-- The stamp of some random bytes and a time. -/
def stampOf (bytes : Text) (time : Int64) : Stamp := ⟨Stamp.idOfBytes bytes, time.toInt⟩

/-- A source file and the file that its image is saved in, as words of a command line. Neither belongs
to a project, and only the name of the second is that of an image. -/
structure Saves [Manifest.Decoder] [Image.Codec] (disk saved : Disk) (source path : Text)
    (build : Build) (stamp : Stamp) : Prop where
  rooted : disk.Rooted
  built : disk.build {} source = .ok build
  names : ∀ file ∈ build.files, Utf8.valid file = true
  fits : disk.Fits build
  source_operand : Word.ofText source = .operand
  source_suffix : Job.imageSuffix.isSuffixOf source = false
  source_project : Manifest.find disk (Path.directory source) = .ok none
  path_operand : Word.ofText path = .operand
  path_suffix : Job.imageSuffix.isSuffixOf path = true
  written : ∀ bytes, (build.image stamp).write = .ok bytes → writeFile disk path bytes = (saved, none)
  path_project : Manifest.find saved (Path.directory path) = .ok none

namespace Saves

variable [Manifest.Decoder] [Image.Codec] {limit : Nat} {disk saved : Disk} {source path : Text}
  {build : Build} {stamp : Stamp} {words : List Text}

/-- The source has a name. -/
theorem source_ne_nil (h : Saves disk saved source path build stamp) : source ≠ [] := by
  intro hempty
  obtain ⟨contents, hread, -⟩ := Disk.exists_read_of_build h.built
  rw [hempty] at hread
  cases hread

/-- The name of an image is that of no command, so it may stand behind any options. -/
theorem fileWord_path (h : Saves disk saved source path build stamp) (words : List Text) :
    FileWord words path := by
  have hsuffix := h.path_suffix
  refine ⟨h.path_operand, fun hempty => ?_, fun _ hmem => ?_⟩
  · rw [hempty] at hsuffix
    cases hsuffix
  · have hcommands : ∀ command ∈ commands, Job.imageSuffix.isSuffixOf command = false := by decide
    cases hsuffix.symm.trans (hcommands path hmem)

section Conforming

variable (hcodec : Image.Codec.Conforms limit) (h : Saves disk saved source path build stamp)
  (hstamp : stamp.Sound)
include hcodec h hstamp

/-- The image is written as its layout. -/
theorem write_eq : (build.image stamp).write = .ok (build.image stamp).toCbor.write :=
  Image.write_eq hcodec (h.rooted.sound_image h.built h.names h.fits hstamp)

/-- The file holds the layout of the image. -/
theorem written_eq : writeFile disk path (build.image stamp).toCbor.write = (saved, none) :=
  h.written _ (h.write_eq hcodec hstamp)

/-- The image that was written is read back, if the program is not too long. -/
theorem read_saved :
    ∃ bytes, saved.read path = .ok bytes ∧
      (build.code.length ≤ limit → Image.read bytes = .ok (build.image stamp)) ∧
      (limit < build.code.length → ∃ complaint, Image.read bytes = .error (.malformed complaint)) := by
  have hwritten := h.written_eq hcodec hstamp
  have hsaved : (writeFile disk path (build.image stamp).toCbor.write).1 = saved :=
    congrArg Prod.fst hwritten
  have hsound := h.rooted.sound_image h.built h.names h.fits hstamp
  have hbrief : (build.image stamp).Brief limit ↔ build.code.length ≤ limit := by
    rw [Image.Brief, Build.program_image, Build.locations_image, Build.length_locations, and_self]
  refine ⟨(build.image stamp).toCbor.write, ?_, fun hshort => ?_, fun hlong => ?_⟩
  · rw [← hsaved]
    exact read_of_writeFile (congrArg Prod.snd hwritten)
  · rw [Image.read_toCbor hcodec hsound (hbrief.mpr hshort) rfl, Build.settled_image]
  · exact Image.read_toCbor_of_not_brief hcodec hsound (mt hbrief.mp (Nat.not_le.mpr hlong))

variable [Database]

/-- The image is saved without a word. -/
theorem run_image_option (passed : Text) :
    run disk stamp passed ["-image", path, source] = some { disk := saved } :=
  run_save h.source_operand h.source_ne_nil h.source_suffix (h.fileWord_path []).nonempty h.source_project
    h.built (h.write_eq hcodec hstamp) (h.written_eq hcodec hstamp) passed

/-- The runs of an image and of its source. -/
theorem shown_run (hwords : Presents words) (hfree : words = [] → source ∉ commands)
    (first second : Stamp) (passed : Text) :
    (build.code.length ≤ limit →
      (run saved second passed (words ++ [path])).map Outcome.shown =
        (run disk first passed (words ++ [source])).map Outcome.shown) ∧
    (limit < build.code.length →
      ∃ outcome, run saved second passed (words ++ [path]) = some outcome ∧ outcome.exit ≠ 0 ∧
        outcome.printed = []) := by
  have hsource : FileWord words source := ⟨h.source_operand, h.source_ne_nil, hfree⟩
  have hpath := h.fileWord_path words
  obtain ⟨bytes, hread, hgiven, hrefused⟩ := h.read_saved hcodec hstamp
  rcases run_presents hwords with ⟨complaint, hmisuse⟩ | ⟨options, hoptions, hrun⟩
  · rw [hmisuse saved second passed path hpath, hmisuse disk first passed source hsource]
    exact ⟨fun _ => rfl, fun _ => ⟨_, rfl, by simp [Outcome.complain], rfl⟩⟩
  · rw [hrun saved second passed path hpath h.path_project,
      hrun disk first passed source hsource h.source_project]
    refine ⟨fun hshort => ?_, fun hlong => ?_⟩
    · rw [Job.run_image h.path_suffix hread options second passed (hgiven hshort),
        Job.run_source hoptions h.source_suffix h.built first passed]
      have hsame : Job.SameProgram ⟨build.image first, some build⟩ ⟨build.image stamp, none⟩ :=
        ⟨rfl, rfl, rfl⟩
      exact Job.shown_finish hoptions hsame source path passed rfl
    · obtain ⟨complaint, hfault⟩ := hrefused hlong
      exact ⟨_, Job.run_no_image h.path_suffix hread options second passed hfault,
        by simp [Outcome.complain], rfl⟩

end Conforming

end Saves

section Root

variable [Manifest.Decoder] {entries : List (Place × DiskEntry)}

/-- There is no project above the root. -/
theorem find_of_root {path : Text} (hpath : Path.elements (Path.absolute (Place.path []) path) = [])
    (hentry : Disk.entry? ⟨entries, []⟩ [Manifest.fileName] = none) :
    Manifest.find ⟨entries, []⟩ path = .ok none := by
  have hjoin : Path.join (Place.path []) Manifest.fileName = Place.path [Manifest.fileName] := by
    decide +kernel
  have hlocate : Disk.locate ⟨entries, []⟩ (Place.path [Manifest.fileName]) = .ok [Manifest.fileName] := rfl
  have hupward : Manifest.upward [] = [Place.path []] := rfl
  have hmissing : (Disk.find ⟨entries, []⟩ (Place.path [Manifest.fileName])).toOption.isSome = false := by
    rw [Disk.find, hlocate]
    simp only [bind, Except.bind, hentry]
    rfl
  simp only [Manifest.find, Disk.placeOf, Disk.absolute, hpath, hupward, List.find?_singleton, hjoin,
    hmissing]
  rfl

variable [Image.Codec] {limit : Nat}

/-- A source in the root of a disk is saved beside it. -/
theorem saves_of_root (hcodec : Image.Codec.Conforms limit) {build : Build}
    (hrooted : Disk.Rooted ⟨entries, []⟩)
    (hproject : Disk.entry? ⟨entries, []⟩ [Manifest.fileName] = none)
    (hfree : Disk.entry? ⟨entries, []⟩ [Text.ofString "p.brimg"] = none)
    (hbuild : Disk.build ⟨entries, []⟩ {} "main.br" = .ok build)
    (hnames : ∀ file ∈ build.files, Utf8.valid file = true) (hfits : Disk.Fits ⟨entries, []⟩ build)
    {stamp : Stamp} (hstamp : stamp.Sound) :
    Saves ⟨entries, []⟩
      (Disk.insert ⟨entries, []⟩ [Text.ofString "p.brimg"] (.file (build.image stamp).toCbor.write))
      "main.br" "p.brimg" build stamp where
  rooted := hrooted
  built := hbuild
  names := hnames
  fits := hfits
  source_operand := by decide
  source_suffix := by decide
  source_project := find_of_root (by decide +kernel) hproject
  path_operand := by decide
  path_suffix := by decide
  written bytes hbytes := by
    have hmade : Disk.makeDirectories ⟨entries, []⟩ (Path.directory "p.brimg") = .ok ⟨entries, []⟩ := rfl
    have hlocate : Disk.locate ⟨entries, []⟩ "p.brimg" = .ok [Text.ofString "p.brimg"] := rfl
    have hwrite := Image.write_eq hcodec (hrooted.sound_image hbuild hnames hfits hstamp)
    obtain rfl := Except.ok.inj (hbytes.symm.trans hwrite)
    rw [writeFile, hmade]
    simp only [Disk.write, hlocate, hfree]
  path_project := by
    refine find_of_root (by decide +kernel) ?_
    exact (Disk.entry?_insert (by simp) [Manifest.fileName]).trans ((if_neg (by decide)).trans hproject)

end Root

/-- With a codec that conforms, an image of a source is saved without a word. Then printing, listing and
running the image shows what the source shows, or runs without end as the source does, whatever the
options say and the input is, if the program is not longer than the codec accepts. The image of a
longer program is refused. -/
theorem saved_images_show_sources [Manifest.Decoder] [Image.Codec] [Database] {limit : Nat}
    (hcodec : Image.Codec.Conforms limit) {disk saved : Disk} {source path : Text} {build : Build}
    {bytes : Text} {time : Int64} (h : Saves disk saved source path build (stampOf bytes time)) :
    (∀ passed, run disk (stampOf bytes time) passed ["-image", path, source] = some { disk := saved }) ∧
      ∀ words, Presents words → (words = [] → source ∉ commands) → ∀ first second passed,
        (build.code.length ≤ limit →
          (run saved second passed (words ++ [path])).map Outcome.shown =
            (run disk first passed (words ++ [source])).map Outcome.shown) ∧
        (limit < build.code.length →
          ∃ outcome, run saved second passed (words ++ [path]) = some outcome ∧ outcome.exit ≠ 0 ∧
            outcome.printed = []) := by
  have hstamp := Stamp.sound_of_bytes bytes time
  refine ⟨h.run_image_option hcodec hstamp, fun words hwords hfree first second passed => ?_⟩
  exact h.shown_run hcodec hstamp hwords hfree first second passed

/-- A disk with a program that has a comment of each kind. -/
def booth : Disk :=
  ⟨[([Text.ofString "main.br"], .file "import 'lib.br'\nreg x\nthrice x\n_print x\n"),
    ([Text.ofString "lib.br"], .file "macro global thrice address a\n    _add a 3\n")], []⟩

/-- That program is built, and its comments are short. -/
theorem exists_build_booth : ∃ build, booth.build {} "main.br" = .ok build ∧
    build.files = [Text.ofString "/main.br", Text.ofString "/lib.br"] ∧ build.code.length = 9 ∧
      ∀ instruction ∈ build.code, instruction.comment.length < 32 := by
  have hfacts : (booth.build {} "main.br").toOption.map (fun build => (build.files,
      build.code.map fun instruction => instruction.comment.length)) =
        some ([Text.ofString "/main.br", Text.ofString "/lib.br"], [14, 23, 8, 0, 0, 0, 0, 0, 0]) := by
    decide +kernel
  obtain ⟨build, hbuild, hfacts⟩ := Option.map_eq_some_iff.mp hfacts
  obtain ⟨hfiles, hlengths⟩ := Prod.mk.inj hfacts
  refine ⟨build, eq_ok_of_toOption hbuild, hfiles, ?_, fun instruction hmem => ?_⟩
  · simpa using congrArg List.length hlengths
  · have hlength := List.mem_map_of_mem (f := fun i : Instruction => i.comment.length) hmem
    rw [hlengths] at hlength
    exact (show ∀ length ∈ [14, 23, 8, 0, 0, 0, 0, 0, 0], length < 32 by decide) _ hlength

/-- That program shows the same from its image. -/
theorem saved_images_show_sources_booth :
    ∃ build saved, Saves booth saved "main.br" "p.brimg" build (stampOf [7] 1) ∧
      build.code.length ≤ Cbor.maxEntries ∧
        Presents ["-emit", "-eof", "zero", "--max-steps=9"] ∧
          (run saved (stampOf [] 0) [] ["-emit", "-eof", "zero", "--max-steps=9", "p.brimg"]).map
            Outcome.shown = some (0, Text.ofString "+++.\n", []) := by
  obtain ⟨build, hbuild, hfiles, hlength, hcomments⟩ := exists_build_booth
  have hnames : ∀ file ∈ build.files, Utf8.valid file = true := by
    rw [hfiles]
    decide
  have hfits : booth.Fits build := by
    refine ⟨hlength ▸ by decide, fun instruction hmem => ?_, by rw [hfiles]; decide, ?_⟩
    · exact Nat.lt_trans (hcomments instruction hmem) (by decide)
    · rw [hfiles]
      have hlengths : ∀ file ∈ [Text.ofString "/main.br", Text.ofString "/lib.br"],
          (booth.read file).toOption.all (fun contents => decide (contents.length < 64)) = true := by
        decide +kernel
      intro file hfile contents hread
      have hlength := hlengths file hfile
      rw [hread] at hlength
      have hlength : contents.length < 64 := of_decide_eq_true hlength
      rw [Number.greatest]
      omega
  have hrooted : booth.Rooted := Disk.rooted_of_entries rfl (by decide)
  have hsaves := saves_of_root Image.codec_conforms hrooted rfl rfl hbuild hnames hfits
    (Stamp.sound_of_bytes [7] 1)
  have hwords : Presents ["-emit", "-eof", "zero", "--max-steps=9"] := by
    refine .switch (show Word.ofText "-emit" = .option "emit" none by decide) (by decide) ?_
    refine .apart (show Word.ofText "-eof" = .option "eof" none by decide) (by decide) ?_
    exact .joined (show Word.ofText "--max-steps=9" = .option "max-steps" (some "9") by decide)
      (by decide) .nil
  have hshort : build.code.length ≤ Cbor.maxEntries := hlength ▸ by decide
  have hsource : (run booth (stampOf [] 0) [] ["-emit", "-eof", "zero", "--max-steps=9", "main.br"]).map
      Outcome.shown = some (0, Text.ofString "+++.\n", []) := by decide +kernel
  obtain ⟨-, hrun⟩ := saved_images_show_sources Image.codec_conforms hsaves
  exact ⟨build, _, hsaves, hshort, hwords,
    ((hrun _ hwords (by simp) (stampOf [] 0) (stampOf [] 0) []).1 hshort).trans hsource⟩

end Command

/-! ## A program that is too long -/

/-- A source with the same line over and over. -/
def chant (n : Nat) : Text := Text.join "\n" (List.replicate n "__plus 1")

/-- The line of a chant with a number. -/
def chantLine (number : Nat) : Statement :=
  { line := number, depth := 0, head := ⟨number, 0, "__plus"⟩, args := [⟨number, 7, "1"⟩],
    source := "__plus 1" }

/-- The expressions of a chant. -/
def chantBody (numbers : List Nat) : List Node := numbers.map fun number => .call (chantLine number)

/-- The lines of a chant are read one by one. -/
theorem readFrom_chant (number n : Nat) :
    Source.readFrom number (List.replicate n "__plus 1") =
      .ok (Node.bodyStatements (chantBody (List.range' number n))) := by
  induction n generalizing number with
  | zero => rfl
  | succ n ih =>
    have hline : Source.readLine (number : Nat) "__plus 1" = .ok (some (chantLine number)) := rfl
    rw [List.replicate_succ, Source.readFrom, hline, ih]
    rfl

/-- The expressions of a chant stand at the margin. -/
theorem layered_chantBody (numbers : List Nat) : Node.Layered 0 (chantBody numbers) := by
  induction numbers with
  | nil => exact .nil
  | cons number rest ih => exact .call rfl ih

/-- No line of a chant is indented. -/
theorem risesFrom_chantBody {previous : Int} (hprevious : -1 ≤ previous) (numbers : List Nat) :
    Source.RisesFrom previous (Node.bodyStatements (chantBody numbers)) := by
  induction numbers generalizing previous with
  | nil => exact List.isChain_singleton _
  | cons number rest ih =>
    have hdepth : (chantLine number).depth = 0 := rfl
    exact Source.risesFrom_cons.mpr ⟨by omega, ih (by omega)⟩

/-- A chant is read as its expressions. -/
theorem parse_chant {n : Nat} (hn : 0 < n) :
    Source.parse (chant n) = .ok (chantBody (List.range' 1 n)) := by
  have hlines : ∀ line ∈ List.replicate n (Text.ofString "__plus 1"), Source.IsLine line := by
    intro line hline
    rw [List.eq_of_mem_replicate hline]
    exact ⟨by decide, by decide +kernel, by decide⟩
  have hread := Source.read_join hlines (by simp; omega)
  refine Source.parse_of_layered ?_ (risesFrom_chantBody (by decide) _) (layered_chantBody _)
  rw [Source.statements_eq_ok_iff, chant, hread]
  exact ⟨readFrom_chant 1 n, rfl⟩

/-- A line of a chant has nine bytes with its end. -/
theorem length_chant_le (n : Nat) : (chant n).length ≤ 9 * n := by
  induction n with
  | zero => exact Nat.le_refl 0
  | succ n ih =>
    cases n with
    | zero => decide
    | succ n =>
      have hline : (Text.ofString "__plus 1").length = 8 ∧ (Text.ofString "\n").length = 1 := by decide
      rw [chant] at ih ⊢
      rw [List.replicate_succ, List.replicate_succ, Text.join, List.intercalate_cons_cons, ← List.replicate_succ]
      rw [Text.join] at ih
      simp only [List.length_append] at ih ⊢
      omega

/-- Each line of a chant emits one instruction. -/
theorem emits_chantBody (name : Text) (body : List Node) (numbers : List Nat) :
    Expansion.Emits (Expansion.State.initial name body).env (chantBody numbers)
      (List.replicate numbers.length (.moveCell 1)) := by
  induction numbers with
  | nil => exact .nil
  | cons number rest ih =>
    have hcall : Expansion.Calls (Expansion.State.initial name body).env (.call (chantLine number)) _ _ :=
      ⟨by simp, rfl, rfl, rfl⟩
    exact .cons hcall rfl ih

/-- A disk with a chant in its root. -/
def choir (n : Nat) : Disk := ⟨[([Text.ofString "main.br"], .file (chant n))], []⟩

/-- That disk is rooted. -/
theorem rooted_choir (n : Nat) : (choir n).Rooted := by
  refine Disk.rooted_of_entries rfl (List.forall_mem_singleton.mpr ⟨rfl, ?_⟩)
  exact List.forall_mem_singleton.mpr (by decide)

/-- A chant is built into a program of its length. -/
theorem exists_build_choir {n : Nat} (hn : 0 < n) :
    ∃ build, (choir n).build {} "main.br" = .ok build ∧ build.code = List.replicate n (.moveCell 1) ∧
      build.files = [Text.ofString "/main.br"] := by
  have hbody := emits_chantBody "/main.br" (chantBody (List.range' 1 n)) (List.range' 1 n)
  obtain ⟨last, hrun, hwrote⟩ := Expansion.visitAll_of_emits ((choir n).setup {}) 511 [] "/main.br"
    hbody rfl
  rw [List.length_range'] at hwrote
  obtain ⟨added, hadded, hcode⟩ := hwrote.visits_eq
  refine ⟨⟨last.visits.reverse, last.files, last.env.rootScope⟩, ?_, ?_, hwrote.files_eq⟩
  · have hread : (choir n).read "main.br" = .ok (chant n) := rfl
    have hname : (choir n).absolute "main.br" = Text.ofString "/main.br" := rfl
    have hready : Expansion.run ((choir n).setup {}) "/main.br" (chantBody (List.range' 1 n)) =
        .ready last := hrun
    rw [Disk.build, hread, hname]
    simp only [Expansion.Setup.build, parse_chant hn, Expansion.Setup.buildBody, hready,
      Expansion.Progress.build]
  · rw [Build.code]
    simp only [hadded, List.reverse_append, List.flatMap_append, hcode]
    rfl

/-- A tree of instructions without loops holds just these. -/
theorem Fragment.flatten_plains (plains : List PlainInstruction) :
    flatten (plains.map .plain) = plains.map Subtype.val := by
  induction plains with
  | nil => rfl
  | cons i rest ih => rw [List.map_cons, flatten_plain, ih, List.map_cons]

/-- Instructions without loops come to their end, or stop for want of input. -/
theorem Fragment.exists_runs_plains (policy : EofPolicy) (plains : List PlainInstruction)
    (s : Configuration) :
    ∃ t, Runs policy (plains.map .plain) s .finished t ∨ Runs policy (plains.map .plain) s .starved t := by
  induction plains generalizing s with
  | nil => exact ⟨s, .inl .finish⟩
  | cons i rest ih =>
    cases heffect : i.val.effect policy s with
    | none => exact ⟨s, .inr (.starve heffect)⟩
    | some mid =>
      obtain ⟨t, hruns⟩ := ih mid
      exact ⟨t, hruns.imp (.plain heffect) (.plain heffect)⟩

namespace Command

/-- A chant can be saved, also one that is too long to be read back. -/
theorem exists_saves_choir {n : Nat} (hn : 0 < n) (hsize : 9 * (n : Int) < Number.greatest) (bytes : Text)
    (time : Int64) :
    ∃ build saved, Saves (choir n) saved "main.br" "p.brimg" build (stampOf bytes time) ∧
      build.code = List.replicate n (.moveCell 1) := by
  obtain ⟨build, hbuild, hcode, hfiles⟩ := exists_build_choir hn
  have hfits : (choir n).Fits build := by
    refine ⟨?_, fun instruction hmem => ?_, ?_, ?_⟩
    · rw [hcode, List.length_replicate, Number.span]
      unfold Number.greatest at hsize
      omega
    · rw [hcode] at hmem
      rw [List.eq_of_mem_replicate hmem]
      decide
    · rw [hfiles]
      decide
    · rw [hfiles]
      refine List.forall_mem_singleton.mpr fun contents hread => ?_
      have hlength := length_chant_le n
      rw [Except.ok.inj (show Except.ok (chant n) = Except.ok contents from hread)] at hlength
      omega
  have hnames : ∀ file ∈ build.files, Utf8.valid file = true := by
    rw [hfiles]
    decide
  exact ⟨build, _, saves_of_root Image.codec_conforms (rooted_choir n) rfl rfl hbuild hnames hfits
    (Stamp.sound_of_bytes bytes time), hcode⟩

/-- A program without brackets ends, whatever the input is, and is run without a complaint. -/
theorem Job.exists_execute {product : Product} {plains : List PlainInstruction}
    (hprogram : product.image.program = plains.map Subtype.val) (source passed : Text) (outcome : Outcome) :
    ∃ after, execute ⟨{ run := true }, source, none⟩ product passed outcome = some after ∧
      after.exit = outcome.exit := by
  obtain ⟨m, code, hload, hcode, hshows⟩ :=
    Machine.exists_load_flatten (plains.map .plain) .empty passed .halt
  obtain ⟨t, hruns⟩ := Fragment.exists_runs_plains .halt plains ⟨[], Tape.empty.get, 0, passed⟩
  obtain ⟨last, hrun, -⟩ := (Machine.halts_iff_runs hcode hshows t).mpr hruns
  have hmachine : machineOptions ⟨{ run := true }, source, none⟩ = .ok {} := rfl
  have hinput : input ⟨{ run := true }, source, none⟩ outcome.disk passed = .ok { bytes := passed } := rfl
  have hloaded : Machine.load product.image.program { input := { bytes := passed } } = .ok m := by
    rw [hprogram, ← Fragment.flatten_plains]
    exact hload
  simp only [execute, hmachine, hinput, hloaded, hrun]
  exact ⟨_, rfl, rfl⟩

/-- The source of a program without brackets is run to its end without a complaint. -/
theorem Saves.exists_run {disk saved : Disk} {source path : Text} {build : Build} {stamp : Stamp}
    (h : Saves disk saved source path build stamp) {plains : List PlainInstruction}
    (hcode : build.code = plains.map Subtype.val) (first : Stamp) (passed : Text) :
    ∃ outcome, run disk first passed ["-run", source] = some outcome ∧ outcome.exit = 0 := by
  have hread : readOptions {} ["-run", source] = .ok ({ run := true }, [source]) := by
    have hword : Word.ofText "-run" = .option "run" none := by decide
    have hlookup : table.lookup (Text.ofString "run") = some (.switch fun o b => { o with run := b }) := rfl
    rw [readOptions, hword]
    simp only [hlookup, setSwitch]
    change readOptions { run := true } [source] = _
    rw [readOptions, h.source_operand]
  have hprogram : (build.image first).program = plains.map Subtype.val :=
    (Build.program_image build first).trans hcode
  rw [run_eq_compile (by decide), compile_of_readOptions hread h.source_ne_nil rfl h.source_project,
    Job.run_source ⟨rfl, rfl, rfl, rfl, rfl, rfl, rfl, rfl⟩ h.source_suffix h.built]
  exact Job.exists_execute hprogram source passed { disk }

/-- A program runs to its end from its source, but its image is refused, if it has one instruction too
many. -/
theorem overlong_image_unusable :
    ∃ disk saved build, Saves disk saved "main.br" "p.brimg" build (stampOf [] 0) ∧
      ∀ first second passed,
        run disk (stampOf [] 0) passed ["-image", "p.brimg", "main.br"] = some { disk := saved } ∧
          (∃ outcome, run disk first passed ["-run", "main.br"] = some outcome ∧ outcome.exit = 0) ∧
            ∃ outcome, run saved second passed ["-run", "p.brimg"] = some outcome ∧ outcome.exit ≠ 0 := by
  have hsize : 9 * ((Cbor.maxEntries + 1 : Nat) : Int) < Number.greatest := by
    unfold Cbor.maxEntries Number.greatest
    omega
  have hstamp := Stamp.sound_of_bytes [] 0
  obtain ⟨build, saved, hsaves, hcode⟩ := exists_saves_choir (Nat.succ_pos _) hsize [] 0
  have hwords : Presents [Text.ofString "-run"] :=
    .switch (show Word.ofText "-run" = .option "run" none by decide) (by decide) .nil
  have hlong : Cbor.maxEntries < build.code.length := by
    rw [hcode, List.length_replicate]
    exact Nat.lt_succ_self _
  have hplains : build.code =
      (List.replicate (Cbor.maxEntries + 1) (⟨.moveCell 1, by decide⟩ : PlainInstruction)).map
        Subtype.val := by
    rw [hcode, List.map_replicate]
  refine ⟨_, saved, build, hsaves, fun first second passed => ⟨?_, ?_, ?_⟩⟩
  · exact hsaves.run_image_option Image.codec_conforms hstamp passed
  · exact hsaves.exists_run hplains first passed
  · obtain ⟨-, hrefused⟩ :=
      hsaves.shown_run Image.codec_conforms hstamp hwords (by simp) first second passed
    obtain ⟨outcome, hrun, hexit, -⟩ := hrefused hlong
    exact ⟨outcome, hrun, hexit⟩

end Command

end Tapestry

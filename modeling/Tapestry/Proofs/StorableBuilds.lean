import Tapestry.Command.Compile
import Tapestry.Proofs.DefinitionPlaces
import Tapestry.Proofs.ReportUnderlines
import Tapestry.Proofs.StoredImages
import Tapestry.Proofs.TemplateSubstitution

/-!
# Builds that can be stored

The comments of a program are made of fixed words, names, numerals and the names of units. So all
texts in the image of a build are well formed if the names of its units are, and the image can be
written as long as lengths and line numbers fit words.
-/

namespace Tapestry

/-! ## Well-formed texts -/

/-- Text of ASCII bytes is well formed. -/
theorem Utf8.valid_of_ascii {t : Text} (h : ∀ b ∈ t, b < 128) : valid t = true := by
  induction t with
  | nil => rfl
  | cons b t ih =>
    obtain ⟨hb, ht⟩ := List.forall_mem_cons.mp h
    have hbyte : valid [b] = true := by simp [valid, glyphs, read, first, show b < 0x80 from hb]
    exact valid_append hbyte (ih ht)

/-- Digits are ASCII bytes. -/
theorem Byte.lt_of_isDigit {b : UInt8} (h : isDigit b = true) : b < 128 := by
  simp only [isDigit, Bool.and_eq_true, decide_eq_true_eq] at h
  exact UInt8.lt_of_le_of_lt h.2 (by decide)

/-- Letters are ASCII bytes. -/
theorem Byte.lt_of_isLetter {b : UInt8} (h : isLetter b = true) : b < 128 := by
  simp only [isLetter, Bool.or_eq_true, Bool.and_eq_true, decide_eq_true_eq] at h
  rcases h with ⟨-, h⟩ | ⟨-, h⟩ <;> exact UInt8.lt_of_le_of_lt h (by decide)

/-- Names are well formed. -/
theorem Value.valid_of_isIdentifier {name : Text} (h : isIdentifier name = true) :
    Utf8.valid name = true := by
  cases name with
  | nil => cases h
  | cons first rest =>
    simp only [isIdentifier, Bool.and_eq_true, List.all_eq_true, Bool.or_eq_true, beq_iff_eq] at h
    refine Utf8.valid_of_ascii (List.forall_mem_cons.mpr ⟨Byte.lt_of_isLetter h.1, fun b hb => ?_⟩)
    rcases h.2 b hb with (hletter | hdigit) | rfl
    · exact Byte.lt_of_isLetter hletter
    · exact Byte.lt_of_isDigit hdigit
    · decide

/-- Numerals are well formed. -/
theorem Number.valid_nat (n : Nat) : Utf8.valid (nat n) = true :=
  Utf8.valid_of_ascii fun b hb => Byte.lt_of_isDigit ((isDigits_nat n).digits b hb)

/-- Numerals with a sign are well formed. -/
theorem Number.valid_int (n : Int) : Utf8.valid (int n) = true := by
  unfold int
  split
  · exact Utf8.valid_append (by decide) (valid_nat _)
  · exact valid_nat _

/-- The names of kinds are well formed. -/
theorem Kind.valid_name (kind : Kind) : Utf8.valid kind.name = true := by
  cases kind with
  | unknown code =>
    exact Utf8.valid_append (Utf8.valid_append (by decide) (Number.valid_int code)) (by decide)
  | _ => decide

/-- Well-formed pieces are well formed together. -/
theorem Text.valid_join {separator : Text} {pieces : List Text} (hseparator : Utf8.valid separator = true)
    (hpieces : ∀ piece ∈ pieces, Utf8.valid piece = true) :
    Utf8.valid (join separator pieces) = true := by
  induction pieces with
  | nil => rfl
  | cons piece rest ih =>
    obtain ⟨hpiece, hrest⟩ := List.forall_mem_cons.mp hpieces
    cases rest with
    | nil => rwa [join, List.intercalate_singleton]
    | cons next rest =>
      rw [join, List.intercalate_cons_cons]
      exact Utf8.valid_append (Utf8.valid_append hpiece hseparator) (ih hrest)

/-- The header of a function with names for its parameters is well formed. -/
theorem Function.valid_signature {function : Function} (hname : Value.isIdentifier function.name = true)
    (hparams : ∀ param ∈ function.params, Value.isIdentifier param.name = true) :
    Utf8.valid function.signature = true := by
  have hsort : Utf8.valid function.sort = true := by
    unfold sort
    split <;> decide
  have hrendered : Utf8.valid (Text.join ", " (function.params.map Param.render)) = true := by
    refine Text.valid_join (by decide) (List.forall_mem_map.mpr fun param hparam => ?_)
    have hparam := Value.valid_of_isIdentifier (hparams param hparam)
    exact Utf8.valid_append (Utf8.valid_append hparam (by decide)) param.kind.valid_name
  have hhead := Utf8.valid_append hsort (b := " ") (by decide)
  have hcalled := Utf8.valid_append hhead (Value.valid_of_isIdentifier hname)
  exact Utf8.valid_append (Utf8.valid_append (Utf8.valid_append hcalled (by decide)) hrendered) (by decide)

/-! ## Comments -/

/-- Instructions of a primitive have no comments. -/
theorem Primitive.comment_of_mem_code {primitive : Primitive} {bindings : Bindings}
    {instruction : Instruction} (h : instruction ∈ (primitive.code? bindings).getD []) :
    instruction.comment = [] := by
  cases hcode : primitive.code? bindings with
  | none => simp [hcode] at h
  | some code =>
    rw [hcode, Option.getD_some] at h
    cases primitive <;>
      simp only [code?, around, Option.bind_eq_bind, Option.bind_eq_some_iff, Option.some.injEq] at hcode <;>
      grind [Instruction.moveCell, Instruction.moveCursor, Instruction.print, Instruction.read,
        Instruction.loopEnter, Instruction.loopExit]

namespace Expansion

/-- A text that is well formed if the names of some units are. -/
def Clear (files : List Text) (t : Text) : Prop :=
  (∀ file ∈ files, Utf8.valid file = true) → Utf8.valid t = true

/-- The units that are known after a step. -/
def Step.files (before : List Text) : Step → List Text
  | .unit _ name _ => before ++ [name]
  | .fail .. | .done .. | .enter .. => before

/-- The comments that a step writes are clear. -/
theorem clear_of_acts {loader : Loader} {state : State} {visit : Visit} {outcome : Step}
    (henv : state.env.Named) (hvisit : visit.code = []) (h : Acts loader state visit outcome) :
    ∀ instruction ∈ outcome.record.code, Clear (outcome.files state.files) instruction.comment := by
  have hsilent {record : Visit} {files : List Text} (hrecord : record.code = visit.code) :
      ∀ instruction ∈ record.code, Clear files instruction.comment := by simp [hrecord, hvisit]
  cases h with
  | fail began => exact hsilent began.same.2.2
  | splice | idle | template | blockTemplate => exact hsilent rfl
  | emit =>
    intro instruction hmem _
    rw [Primitive.comment_of_mem_code hmem]
    rfl
  | register call action named =>
    refine List.forall_mem_singleton.mpr fun _ => ?_
    have hfunction := mem_builtins_of_named henv call (by simp [Function.isBuiltin, action])
    obtain ⟨-, -, hname⟩ := Function.arguments_of_register hfunction action call.bound named
    have hnamed := Utf8.valid_append (a := "reg ") (by decide) (Value.valid_of_isIdentifier (Value.isIdentifier_iff.mpr hname))
    exact Utf8.valid_append (Utf8.valid_append hnamed (by decide)) (Number.valid_nat _)
  | define call action lasting named defined =>
    refine List.forall_mem_singleton.mpr fun _ => ?_
    have hfunction := mem_builtins_of_named henv call (by simp [Function.isBuiltin, action])
    obtain ⟨header, -, -, hfollows⟩ :=
      Function.exists_follows_of_define hfunction call action lasting named defined
    exact Function.valid_signature hfollows.isIdentifier_name hfollows.isIdentifier_params
  | included _ _ _ _ _ known =>
    refine List.forall_mem_singleton.mpr fun hfiles => ?_
    have hname := Utf8.valid_append (a := "import ") (by decide) (hfiles _ known)
    exact Utf8.valid_append hname (by decide)
  | unit =>
    -- The comment names the unit before it is begun, so its name counts as known only after the step.
    refine List.forall_mem_singleton.mpr fun hfiles => ?_
    exact Utf8.valid_append (by decide) (hfiles _ (List.mem_append_right _ List.mem_cons_self))

/-- A state whose comments are clear. -/
structure Cleared (state : State) : Prop where
  named : state.env.Named
  comments : ∀ visit ∈ state.visits, ∀ instruction ∈ visit.code,
    Clear state.files instruction.comment

/-- A step keeps comments clear, in the state that it leads to. -/
theorem Cleared.record {setup : Setup} {trail : List Visit} {file : Text} {node : Node}
    {state after : State} {outcome : Step} (h : Cleared state)
    (hstep : stepAt setup trail file node state = outcome) (henv : after.env.Named)
    (hfiles : after.files = outcome.files state.files)
    (hvisits : after.visits = outcome.record :: state.visits) : Cleared after := by
  have hsubset : state.files ⊆ outcome.files state.files := by
    cases outcome <;> simp [Step.files]
  refine ⟨henv, ?_⟩
  rw [hfiles, hvisits]
  refine List.forall_mem_cons.mpr ⟨clear_of_acts h.named rfl (acts_of_stepAt hstep), ?_⟩
  exact fun visit hvisit instruction hmem hvalid =>
    h.comments visit hvisit instruction hmem fun known hknown => hvalid known (hsubset hknown)

/-- Steps keep comments clear. -/
theorem cleared_kept (setup : Setup) :
    Kept setup (fun _ _ state => Cleared state) (fun _ _ => True) where
  done h hnode hstep := h.record hstep ((named_kept setup).done h.named hnode hstep) rfl rfl
  enter h hnode hstep :=
    ⟨h.record hstep ((named_kept setup).enter h.named hnode hstep).1 rfl rfl, fun _ _ => trivial⟩
  leave h hnode hstep hafter :=
    ⟨(named_kept setup).leave h.named hnode hstep hafter.named, hafter.comments⟩
  unit h hnode hstep :=
    ⟨h.record hstep ((named_kept setup).unit h.named hnode hstep).1 rfl rfl, fun _ _ => trivial⟩
  endUnit _ _ _ hafter := ⟨hafter.named, hafter.comments⟩

/-- Comments are clear at every point of an expansion. -/
theorem cleared_of_reached {setup : Setup} {name : Text} {body : List Node} {frame : Frame}
    (h : Reached setup name body frame) : Cleared frame.state := by
  refine ((cleared_kept setup).reached ⟨?_, ?_⟩ (fun _ _ => trivial) h).1
  · have hstart : Reached setup name body (.initial setup name body) := .refl
    exact named_of_reached hstart
  · simp [State.initial, Visit.root]

end Expansion

/-! ## Images of builds -/

/-- A stamp that can be stored. -/
structure Stamp.Sound (stamp : Stamp) : Prop where
  buildId : Cbor.Storable stamp.buildId
  created : Number.fits stamp.created = true

/-- A byte is written as two digits. -/
theorem Number.hex_ascii {n : Nat} (h : n < 256) : (hex 2 n).length = 2 ∧ ∀ b ∈ hex 2 n, b < 128 := by
  have hall : (List.range 256).all (fun n =>
      (hex 2 n).length == 2 && (hex 2 n).all fun b => decide (b < 128)) = true := by
    decide +kernel
  have hbyte := List.all_eq_true.mp hall n (List.mem_range.mpr h)
  simpa only [Bool.and_eq_true, beq_iff_eq, List.all_eq_true, decide_eq_true_eq] using hbyte

/-- Two hexadecimal digits are written for each byte. -/
theorem Number.hexBytes_ascii (t : Text) :
    (hexBytes t).length = 2 * t.length ∧ ∀ b ∈ hexBytes t, b < 128 := by
  induction t with
  | nil => simp [hexBytes]
  | cons b t ih =>
    obtain ⟨hlength, hdigits⟩ := hex_ascii b.toNat_lt
    rw [hexBytes, List.flatMap_cons, ← hexBytes]
    refine ⟨by simp only [List.length_append, List.length_cons]; omega, ?_⟩
    exact List.forall_mem_append.mpr ⟨hdigits, ih.2⟩

/-- A build id can be stored, whatever bytes it is made of. -/
theorem Stamp.storable_idOfBytes (bytes : Text) : Cbor.Storable (idOfBytes bytes) := by
  have hpart (t : Text) : Utf8.valid (Number.hexBytes t) = true :=
    Utf8.valid_of_ascii (Number.hexBytes_ascii t).2
  refine ⟨Text.valid_join (by decide) (by simp [hpart]), ?_⟩
  have hlength : (idOfBytes bytes).length ≤ 36 := by
    simp [idOfBytes, Text.join, List.intercalate, Number.hexBytes_ascii,
      show (Text.ofString "-").length = 1 from rfl]
    omega
  exact Nat.lt_of_le_of_lt hlength (by decide)

/-- A stamp of any bytes and any time can be stored. -/
theorem Stamp.sound_of_bytes (bytes : Text) (time : Int64) : Sound ⟨idOfBytes bytes, time.toInt⟩ :=
  ⟨storable_idOfBytes bytes, Number.fits_toInt time⟩

namespace Build

variable {build : Build} {stamp : Stamp}

/-- The program of the image is that of the build. -/
theorem program_image (build : Build) (stamp : Stamp) : (build.image stamp).program = build.code :=
  Image.getD_unlessEmpty _

/-- The locations of the image are those of the build. -/
theorem locations_image (build : Build) (stamp : Stamp) :
    (build.image stamp).locations.getD [] = build.locations := Image.getD_unlessEmpty _

/-- There is a location for each instruction. -/
theorem length_locations (build : Build) : build.locations.length = build.code.length := by
  simp [locations, code, Visit.locations, List.length_flatMap]

/-- The image of a build is its own settled form. -/
theorem settled_image (build : Build) (stamp : Stamp) :
    (build.image stamp).settled = build.image stamp := by
  rw [Image.settled, locations_image]
  rfl

end Build

/-- A number that is wrapped fits a word. -/
theorem Number.fits_wrap (n : Int) : fits (wrap n) = true := by
  have hspan : 0 < span := by decide
  have hlow := Int.le_bmod (x := n) hspan
  have hhigh := Int.bmod_lt (x := n) hspan
  unfold span at *
  rw [fits_iff, wrap, span]
  omega

/-- The place of a visit can be stored if the name of its unit can, and its line fits a word. -/
theorem Visit.storable_location {visit : Visit} (hfile : Cbor.Storable visit.file)
    (hline : visit.location.line ≤ Number.greatest) : visit.location.Storable := by
  by_cases hpos : visit.node.callee.line ≤ 0
  · rw [location, if_pos hpos]
    exact ⟨hfile, rfl, rfl⟩
  · rw [location, if_neg hpos] at *
    refine ⟨hfile, Number.fits_iff.mpr ⟨?_, hline⟩, Number.fits_wrap _⟩
    change Number.least ≤ visit.node.callee.line
    unfold Number.least
    omega

/-- A text has at most one line more than bytes. -/
theorem Text.length_splitOn_le (t : Text) (b : UInt8) : (t.splitOn b).length ≤ t.length + 1 := by
  induction t with
  | nil => exact Nat.le_refl 1
  | cons c rest ih =>
    unfold List.splitOn at *
    rw [List.splitOnP_cons_eq_if_modifyHead]
    split
    · simpa using ih
    · rw [List.length_modifyHead]
      exact Nat.le_succ_of_le ih

/-- A statement of a text has no line number greater than the text is long. -/
theorem Statement.StandsIn.line_le {text : Text} {statement : Statement} (h : statement.StandsIn text) :
    statement.line ≤ (text.length : Int) + 1 := by
  obtain ⟨i, line, hfound, hline, -⟩ := h.exists_line
  have hi := (List.getElem?_eq_some_iff.mp hfound).1
  have hlength := Text.length_splitOn_le text 10
  omega

namespace Disk

variable {disk : Disk} {options : BuildOptions} {path : Text} {build : Build}

/-- The units of an expansion are files. -/
theorem Rooted.read_of_unitText (h : disk.Rooted) {contents file text : Text}
    (hread : disk.read path = .ok contents)
    (htext : unitText (disk.absolute path) contents disk.text? file = some text) :
    disk.read file = .ok text := by
  unfold unitText text? at htext
  split at htext
  case isTrue hmain =>
    cases htext
    rw [hmain]
    exact h.read_absolute hread
  case isFalse =>
    split at htext
    case isTrue => exact eq_ok_of_toOption htext
    case isFalse => cases htext

/-- An instruction comes from a line of a file that was read. -/
theorem Rooted.exists_read_of_location (h : disk.Rooted) (hbuild : disk.build options path = .ok build)
    {visit : Visit} {instruction : Instruction} (hvisit : visit ∈ build.visits)
    (hcode : instruction ∈ visit.code) :
    visit.file ∈ build.files ∧ ∃ contents, disk.read visit.file = .ok contents ∧
      visit.location.line ≤ (contents.length : Int) + 1 := by
  obtain ⟨source, hread, hcompiled⟩ := exists_read_of_build hbuild
  obtain ⟨body, last, hparse, hrun, rfl⟩ := Expansion.Setup.exists_ready_of_build hcompiled
  have hreads := h.readsFrom options.search
  have hloads := Expansion.loadsFrom_of_readsFrom hreads (disk.absolute path) source
  have hmain : unitBody (disk.absolute path) source disk.text? (disk.absolute path) = .ok body :=
    Expansion.unitBody_main hparse
  have hlast := List.mem_reverse.mp hvisit
  have htraced := (Expansion.traced_of_reached hloads hmain (Expansion.reached_end hrun)).1
  refine ⟨List.mem_of_getElem? (htraced.visits visit hlast), ?_⟩
  have hrecorded : visit ∈
      (Expansion.run (disk.setup options) (disk.absolute path) body).state.visits := by
    rw [hrun]
    exact hlast
  rcases Expansion.exists_reached_of_mem_visits hrecorded with rfl | ⟨frame, hreached, hrecords⟩
  · cases hcode
  · have hwritten := Expansion.written_of_records hloads hmain hreached hrecords
    obtain ⟨text, unit, htext, hunit, hsubset⟩ := Expansion.writtenAt_of_written hwritten
    have hstatement := hsubset visit.node.head_mem_statements
    have hplaced := Source.placed_of_mem_statements (Source.statements_of_parse hunit) hstatement
    refine ⟨text, h.read_of_unitText hread htext, ?_⟩
    rw [Visit.location_of_placed hplaced]
    exact (Source.standsIn_of_parse hunit hstatement).line_le

/-- A build whose numbers fit words: the length of the program, those of its comments and the names
of its units, and the line numbers. -/
structure Fits (disk : Disk) (build : Build) : Prop where
  code : build.code.length < Number.span
  comments : ∀ instruction ∈ build.code, instruction.comment.length < Number.span
  names : ∀ file ∈ build.files, file.length < Number.span
  texts : ∀ file ∈ build.files, ∀ contents, disk.read file = .ok contents →
    (contents.length : Int) < Number.greatest

/-- The image of a build can be written if the names of its units are well formed. -/
theorem Rooted.sound_image (h : disk.Rooted) (hbuild : disk.build options path = .ok build)
    (hnames : ∀ file ∈ build.files, Utf8.valid file = true) (hfits : disk.Fits build) {stamp : Stamp}
    (hstamp : stamp.Sound) : (build.image stamp).Sound := by
  have hfile : ∀ file ∈ build.files, Cbor.Storable file :=
    fun file hfile => ⟨hnames file hfile, hfits.names file hfile⟩
  have hmain : Cbor.Storable build.mainFile := by
    unfold Build.mainFile
    cases hfiles : build.files with
    | nil => exact ⟨rfl, by decide⟩
    | cons main rest => exact hfile main (hfiles ▸ List.mem_cons_self)
  have hcomment : ∀ instruction ∈ build.code, Cbor.Storable instruction.comment := by
    obtain ⟨contents, -, hcompiled⟩ := exists_read_of_build hbuild
    obtain ⟨body, last, -, hrun, rfl⟩ := Expansion.Setup.exists_ready_of_build hcompiled
    have hcleared := Expansion.cleared_of_reached (Expansion.reached_end hrun)
    intro instruction hmem
    obtain ⟨visit, hvisit, hcode⟩ := List.mem_flatMap.mp hmem
    exact ⟨hcleared.comments visit (List.mem_reverse.mp hvisit) instruction hcode hnames,
      hfits.comments instruction hmem⟩
  have hlocation : ∀ location ∈ build.locations, location.Storable := by
    intro location hmem
    obtain ⟨visit, hvisit, hplace⟩ := List.mem_flatMap.mp hmem
    obtain ⟨instruction, hcode, rfl⟩ := List.mem_map.mp hplace
    obtain ⟨hknown, contents, hread, hline⟩ := h.exists_read_of_location hbuild hvisit hcode
    have hshort := hfits.texts _ hknown contents hread
    exact Visit.storable_location (hfile _ hknown) (by omega)
  refine ⟨rfl, hstamp.buildId, hmain, hstamp.created, ?_, ?_, ?_, ?_⟩
  · rw [Build.program_image]
    exact hfits.code
  · rw [Build.program_image]
    exact hcomment
  · rw [Build.locations_image, Build.length_locations]
    exact hfits.code
  · rw [Build.locations_image]
    exact hlocation

end Disk

end Tapestry

import Tapestry.Proofs.CursorDrift
import Tapestry.Proofs.Provenance

/-!
# Programs of address helpers

An address helper goes to a cell from cell 0, acts there and comes back, also where it loops. The
other built-in functions that are not raw emit nothing but comments. So a program that calls no
raw function, through whatever templates, blocks and units, is accepted by the machine, and its
cursor is on cell 0 whenever the code of a visit begins and when the program is over.
-/

namespace Tapestry

namespace Primitive

/-- The primitives that expect the cursor on cell 0 and leave it there. -/
def isHelper : Primitive → Bool
  | add | null | printAt | readAt | mov | mov2 => true
  | _ => false

/-- From one cell to another and on to a third is from the first to the third. -/
theorem ofInt_sub_add_ofInt_sub (first second third : Int) :
    Int64.ofInt (second - first) + Int64.ofInt (third - second) = Int64.ofInt (third - first) := by
  rw [← Int64.ofInt_add]
  congr 1
  omega

/-- Steady instructions stay steady when they are done at a cell, and the cursor comes back. -/
theorem level_around (cell : Int) {action : List Instruction} (h : Level action) :
    Level (around cell action) := by
  refine ⟨.plain rfl (h.steady.append (.plain rfl .nil)), ?_⟩
  simp only [around, List.cons_append, drift_cons, drift_append, drift_nil,
    Instruction.drift_moveCursor, h.drift_eq, Int64.zero_add, Int64.add_zero]
  rw [← Int64.ofInt_add, Int.add_right_neg]
  rfl

/-- What a helper emits brings the cursor back, and so do its loops. -/
theorem level_of_isHelper {primitive : Primitive} (h : primitive.isHelper = true)
    {bindings : Bindings} {code : List Instruction} (hcode : primitive.code? bindings = some code) :
    Level code := by
  cases primitive with
  | add =>
    obtain ⟨cell, _, hcode⟩ := Option.bind_eq_some_iff.mp hcode
    obtain ⟨value, _, hcode⟩ := Option.bind_eq_some_iff.mp hcode
    cases hcode
    exact level_around cell (.single rfl rfl)
  | null =>
    obtain ⟨cell, _, hcode⟩ := Option.bind_eq_some_iff.mp hcode
    cases hcode
    have hloop : Level [.moveCell (-1)] := .single rfl rfl
    exact level_around cell hloop.loop
  | printAt | readAt =>
    obtain ⟨cell, _, hcode⟩ := Option.bind_eq_some_iff.mp hcode
    cases hcode
    exact level_around cell (.single rfl rfl)
  | mov =>
    obtain ⟨target, _, hcode⟩ := Option.bind_eq_some_iff.mp hcode
    obtain ⟨source, _, hcode⟩ := Option.bind_eq_some_iff.mp hcode
    cases hcode
    have hbody : Level [.moveCell (-1), .moveCursor (.ofInt (target - source)), .moveCell 1,
        .moveCursor (.ofInt (source - target))] := by
      refine ⟨.plain rfl (.plain rfl (.plain rfl (.plain rfl .nil))), ?_⟩
      simp only [drift_cons, drift_nil, Instruction.drift_moveCell, Instruction.drift_moveCursor,
        Int64.zero_add, Int64.add_zero, ofInt_sub_add_ofInt_sub, Int.sub_self]
      rfl
    exact level_around source hbody.loop
  | mov2 =>
    obtain ⟨first, _, hcode⟩ := Option.bind_eq_some_iff.mp hcode
    obtain ⟨second, _, hcode⟩ := Option.bind_eq_some_iff.mp hcode
    obtain ⟨source, _, hcode⟩ := Option.bind_eq_some_iff.mp hcode
    cases hcode
    have hbody : Level [.moveCell (-1), .moveCursor (.ofInt (first - source)), .moveCell 1,
        .moveCursor (.ofInt (second - first)), .moveCell 1,
        .moveCursor (.ofInt (source - second))] := by
      refine ⟨.plain rfl (.plain rfl (.plain rfl (.plain rfl (.plain rfl (.plain rfl .nil))))), ?_⟩
      simp only [drift_cons, drift_nil, Instruction.drift_moveCell, Instruction.drift_moveCursor,
        Int64.zero_add, Int64.add_zero, ofInt_sub_add_ofInt_sub, Int.sub_self]
      rfl
    exact level_around source hbody.loop
  | _ => cases h

end Primitive

/-- Whether a function is a built-in one that emits single instructions. -/
def Function.isRaw (function : Function) : Bool :=
  function.isBuiltin && (Text.ofString "__").isPrefixOf function.name

/-- Whether a visit calls a raw function. -/
def Visit.callsRaw (visit : Visit) : Bool := visit.function.any Function.isRaw

/-- Every built-in function that emits instructions is raw or a helper. -/
theorem Function.isRaw_or_isHelper : ∀ f ∈ Function.builtins, f.isRaw = true ∨
    (match f.action with
      | .primitive primitive => primitive.isHelper
      | _ => true) = true := by
  decide

namespace Expansion

variable {setup : Setup} {loader : Loader} {state : State} {function : Function} {node : Node}
  {bindings : Bindings} {record : Visit}

/-- A call that emits instructions and is not raw is the call of a helper. -/
theorem Calls.isHelper {primitive : Primitive} (hstate : state.Sound)
    (call : Calls state.env node function bindings) (action : function.action = .primitive primitive)
    (hraw : function.isRaw = false) : primitive.isHelper = true := by
  rcases call.sound hstate with hbuiltin | htemplate
  · rcases Function.isRaw_or_isHelper function hbuiltin with h | h
    · rw [hraw] at h
      cases h
    · rwa [action] at h
  · simp [Function.isBuiltin, action] at htemplate

/-- What a visit emits brings the cursor back, unless it calls a raw function. -/
theorem Acts.level_code {visit : Visit} {outcome : Step} (hstate : state.Sound)
    (hvisit : visit.code = []) (h : Acts loader state visit outcome)
    (hraw : outcome.record.callsRaw = false) : Level outcome.record.code := by
  have hsilent {record : Visit} (hrecord : record.code = visit.code) : Level record.code := by
    rw [hrecord, hvisit]
    exact .nil
  cases h with
  | fail began => exact hsilent began.same.2.2
  | splice | idle | template | blockTemplate => exact hsilent rfl
  | @emit function bindings primitive call action =>
    have hhelper := call.isHelper hstate action hraw
    simp only [Step.record]
    cases hcode : primitive.code? bindings with
    | none => exact .nil
    | some code => exact Primitive.level_of_isHelper hhelper hcode
  | register | define | included | unit => exact .single rfl rfl

/-- What a point records brings the cursor back, unless it calls a raw function. -/
theorem Frame.Records.level_code {frame : Frame} (hstate : frame.state.Sound)
    (h : frame.Records setup record) (hraw : record.callsRaw = false) : Level record.code := by
  cases h with
  | tooDeep => exact .nil
  | step => exact (acts_of_stepAt rfl).level_code hstate rfl hraw

/-- Every visit of an expansion brings the cursor back, unless it calls a raw function. -/
theorem level_code_of_mem_visits {name : Text} {body : List Node}
    (h : record ∈ (run setup name body).state.visits) (hraw : record.callsRaw = false) :
    Level record.code := by
  rcases exists_reached_of_mem_visits h with rfl | ⟨frame, hreached, hrecords⟩
  · exact .nil
  · exact hrecords.level_code (sound_of_reached hreached) hraw

end Expansion

namespace Compiler

/-- Whatever the source, the units it asks for and how the machine is set up: where no visit of a
build calls a raw function, the machine accepts the program, and whenever it comes to where the
code of a visit begins, or behind the last instruction, its cursor is on cell 0. -/
theorem helpers_keep_cursor (compiler : Compiler) (name source : Text) {build : Build}
    (hbuild : compiler.build name source = some (.ok build))
    (hhelpers : ∀ visit ∈ build.visits, visit.callsRaw = false) (options : MachineOptions) :
    ∃ m, Machine.load build.code options = .ok m ∧
      ∀ fuel, (build.code.length ≤ (m.runFor fuel).1.pc → (m.runFor fuel).1.cursor = 0) ∧
        ∀ earlier visit later, build.visits = earlier ++ visit :: later →
          (m.runFor fuel).1.pc = (earlier.flatMap Visit.code).length → (m.runFor fuel).1.cursor = 0 := by
  obtain ⟨setup, _, hresult⟩ := exists_setup_of_build hbuild
  obtain ⟨body, state, _, hrun, hends⟩ := Expansion.Setup.exists_ready_of_build hresult
  have hlevel (visit : Visit) (hvisit : visit ∈ build.visits) : Level visit.code := by
    have hmem : visit ∈ (Expansion.run setup name body).state.visits := by
      rw [hends] at hvisit
      rw [hrun]
      exact List.mem_reverse.mp hvisit
    exact Expansion.level_code_of_mem_visits hmem (hhelpers visit hvisit)
  have hcode : Level build.code := .flatMap hlevel
  obtain ⟨m, hload, hcursor⟩ := Machine.cursor_eq_drift hcode.steady options
  refine ⟨m, hload, fun fuel => ⟨fun hend => ?_, ?_⟩⟩
  · rw [hcursor, List.take_of_length_le hend]
    exact hcode.drift_eq
  · intro earlier visit later hsplit hpc
    have hearlier : Level (earlier.flatMap Visit.code) :=
      .flatMap fun other hother => hlevel other (by simp [hsplit, hother])
    rw [hcursor, hpc, Build.code, hsplit, List.flatMap_append, List.take_left]
    exact hearlier.drift_eq

/-- A unit with a template that empties one cell into another and writes it. -/
def pours : Library :=
  ⟨[("tools", Text.ofString "macro global pour address from address into\n    _mov into from\n" ++
    "    _print into\n")]⟩

/-- A source that reads a byte and pours it. -/
def pouring : Text := "import 'tools'\nreg x\nreg y\n_read x\npour x y\n"

/-- On a byte 2 the loop runs twice. The twentieth step then comes to the call that writes, inside
the template, and three steps later the program is over. -/
theorem helpers_keep_cursor_pouring :
    ∃ build m earlier visit later, Compiler.build ⟨pours.loader, 8⟩ "main" pouring = some (.ok build) ∧
      (∀ visit ∈ build.visits, visit.callsRaw = false) ∧
        Machine.load build.code { input := { bytes := [2] } } = .ok m ∧
          build.visits = earlier ++ visit :: later ∧
            visit.function.map Function.name = some (Text.ofString "_print") ∧ visit.depth = 2 ∧
              (m.runFor 20).1.pc = (earlier.flatMap Visit.code).length ∧
                (m.runFor 20).1.cursor = 0 ∧ build.code.length ≤ (m.runFor 23).1.pc ∧
                  (m.runFor 23).1.cursor = 0 := by
  have hfacts : (Expansion.Setup.build ⟨pours.loader, 8⟩ "main" pouring).toOption.map (fun build =>
      (build.visits.all (fun visit => !visit.callsRaw), build.code.length,
        ((build.visits.take 8).flatMap Visit.code).length)) = some (true, 18, 15) := by decide +kernel
  have hplace : (Expansion.Setup.build ⟨pours.loader, 8⟩ "main" pouring).toOption.map (fun build =>
      build.visits[8]?.map fun visit => (visit.function.map Function.name, visit.depth)) =
      some (some (some (Text.ofString "_print"), 2)) := by decide +kernel
  have hpcs : (Expansion.Setup.build ⟨pours.loader, 8⟩ "main" pouring).toOption.map (fun build =>
      (Machine.load build.code { input := { bytes := [2] } }).toOption.map fun m =>
        ((m.runFor 20).1.pc, (m.runFor 23).1.pc)) = some (some (15, 18)) := by decide +kernel
  obtain ⟨build, hbuild, hfacts⟩ := Option.map_eq_some_iff.mp hfacts
  rw [hbuild, Option.map_some, Option.some.injEq] at hplace hpcs
  have hbuild : Compiler.build ⟨pours.loader, 8⟩ "main" pouring = some (.ok build) :=
    (build_of_limit rfl "main" pouring).trans (congrArg some (eq_ok_of_toOption hbuild))
  simp only [Prod.mk.injEq] at hfacts
  obtain ⟨hhelpers, hlength, hstart⟩ := hfacts
  obtain ⟨visit, hvisit, hplace⟩ := Option.map_eq_some_iff.mp hplace
  obtain ⟨hname, hdepth⟩ := Prod.mk.inj hplace
  have hhelpers : ∀ visit ∈ build.visits, visit.callsRaw = false := by
    simpa [List.all_eq_true] using hhelpers
  obtain ⟨m, hload, hcursor⟩ := helpers_keep_cursor ⟨pours.loader, 8⟩ "main" pouring hbuild hhelpers
    { input := { bytes := [2] } }
  rw [hload] at hpcs
  obtain ⟨hfirst, hlast⟩ := Prod.mk.inj (Option.some.inj hpcs)
  have hsplit := Visit.eq_append_of_getElem? hvisit
  have hat : (m.runFor 20).1.pc = ((build.visits.take 8).flatMap Visit.code).length := by
    rw [hfirst, hstart]
  have hend : build.code.length ≤ (m.runFor 23).1.pc := by omega
  exact ⟨build, m, _, visit, _, hbuild, hhelpers, hload, hsplit, hname, hdepth, hat,
    (hcursor 20).2 _ _ _ hsplit hat, hend, (hcursor 23).1 hend⟩

end Compiler

end Tapestry

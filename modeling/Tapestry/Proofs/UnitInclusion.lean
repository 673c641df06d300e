import Tapestry.Proofs.Provenance
import Tapestry.Proofs.ScopeChain

/-!
# Units are expanded once

A unit is known by the name it was found under, whatever path was written to ask for it. The
units being expanded are the main unit and those that the visits around a point expand; the units
read so far are the main unit and those that some visit expanded. A visit that asks for a unit
stops the expansion if the unit is among the first, does nothing if it is among the others, and
expands it if it is new. So every unit of a build is expanded by exactly one visit.
-/

namespace Tapestry

/-- What is emitted for a unit that is expanded. -/
def noteBegun (unit : Text) : List Instruction := [.nop ("import " ++ unit)]

/-- What is emitted for a unit that has been expanded before. -/
def noteIncluded (unit : Text) : List Instruction := [.nop ("import " ++ unit ++ " (included)")]

/-- A note of one sort is never taken for the other. -/
theorem noteIncluded_ne_noteBegun (unit : Text) : noteIncluded unit ≠ noteBegun unit := by
  intro h
  have hlength := congrArg List.length (Instruction.mk.inj (List.cons.inj h).1).2.2
  have hmark : (Text.ofString " (included)").length = 11 := by decide
  rw [List.length_append, hmark] at hlength
  omega

namespace Visit

/-- The unit that a visit asks for and its expressions, if it can be read. -/
def unit? (loader : Loader) (visit : Visit) : Option (Text × List Node) :=
  if visit.asksForUnit then
    (Bindings.str? visit.bindings "path").bind fun (target, _) =>
      (loader target visit.file).content.toOption.map fun body =>
        ((loader target visit.file).name, body)
  else none

/-- The unit that a visit expands. -/
def expanded? (loader : Loader) (visit : Visit) : Option Text :=
  (visit.unit? loader).bind fun found =>
    if visit.code = noteBegun found.1 then some found.1 else none

variable {loader : Loader} {visit : Visit} {unit target : Text} {body : List Node} {token : Token}

/-- A visit that asks for a unit calls the function for it with a path that leads there. -/
theorem exists_of_unit? (h : visit.unit? loader = some (unit, body)) :
    visit.asksForUnit = true ∧ ∃ target token, Bindings.str? visit.bindings "path" = some (target, token) ∧
      loader target visit.file = ⟨unit, .ok body⟩ := by
  unfold unit? at h
  split at h
  case isTrue hasks =>
    obtain ⟨⟨target, token⟩, hpath, h⟩ := Option.bind_eq_some_iff.mp h
    obtain ⟨content, hcontent, heq⟩ := Option.map_eq_some_iff.mp h
    cases heq
    refine ⟨hasks, target, token, hpath, ?_⟩
    rw [← eq_ok_of_toOption hcontent]
  case isFalse => cases h

/-- A visit that calls the function for units with a path that leads to one asks for it. -/
theorem unit?_eq (hasks : visit.asksForUnit = true)
    (hpath : Bindings.str? visit.bindings "path" = some (target, token))
    (hcontent : (loader target visit.file).content = .ok body) :
    visit.unit? loader = some ((loader target visit.file).name, body) := by
  simp [unit?, hasks, hpath, hcontent, Except.toOption]

/-- A visit that asks for no unit expands none. -/
theorem expanded?_of_not_asksForUnit (h : visit.asksForUnit = false) :
    visit.expanded? loader = none := by
  simp [expanded?, unit?, h]

/-- A visit that has emitted nothing expands no unit. -/
theorem expanded?_of_code_nil (h : visit.code = []) : visit.expanded? loader = none := by
  simp [expanded?, h, noteBegun]

/-- A visit that notes the beginning of a unit expands it. -/
theorem expanded?_of_begun (hasks : visit.asksForUnit = true)
    (hpath : Bindings.str? visit.bindings "path" = some (target, token))
    (hcontent : (loader target visit.file).content = .ok body)
    (hcode : visit.code = noteBegun (loader target visit.file).name) :
    visit.expanded? loader = some (loader target visit.file).name := by
  rw [expanded?, unit?_eq hasks hpath hcontent, Option.bind_some, if_pos hcode]

/-- A visit that notes that a unit was included before expands none. -/
theorem expanded?_of_included (hasks : visit.asksForUnit = true)
    (hpath : Bindings.str? visit.bindings "path" = some (target, token))
    (hcontent : (loader target visit.file).content = .ok body)
    (hcode : visit.code = noteIncluded (loader target visit.file).name) :
    visit.expanded? loader = none := by
  rw [expanded?, unit?_eq hasks hpath hcontent, Option.bind_some, hcode,
    if_neg (noteIncluded_ne_noteBegun _)]

end Visit

namespace Expansion

variable {body : List Node} {name unit : Text} {library : Library}

/-- The main unit and those that visits expand, in order. -/
def expandedUnits (loader : Loader) (name : Text) (visits : List Visit) : List Text :=
  name :: visits.filterMap (Visit.expanded? loader)

/-- The unit that a step begins. -/
def Step.begun? : Step → Option Text
  | .unit _ name _ => some name
  | _ => none

section Steps

variable {setup : Setup} {loader : Loader} {state : State} {visit : Visit} {outcome : Step}

/-- A visit is recorded as expanding a unit exactly if its step begins it. -/
theorem Acts.expanded?_record (h : Acts loader state visit outcome) (hvisit : visit.code = []) :
    outcome.record.expanded? loader = outcome.begun? := by
  cases h with
  | fail began => exact Visit.expanded?_of_code_nil (began.same.2.2.trans hvisit)
  | splice | idle | template | blockTemplate => exact Visit.expanded?_of_code_nil hvisit
  | emit call action | register call action | define call action =>
    refine Visit.expanded?_of_not_asksForUnit (Bool.eq_false_iff.mpr fun hasks => ?_)
    have hunit := (Visit.asksForUnit_iff rfl).mp hasks
    rw [action] at hunit
    cases hunit
  | included call action path loaded =>
    exact Visit.expanded?_of_included ((Visit.asksForUnit_iff rfl).mpr action) path loaded rfl
  | unit call action path loaded =>
    exact Visit.expanded?_of_begun ((Visit.asksForUnit_iff rfl).mpr action) path loaded rfl

/-- How the step of a visit goes that asks for a unit. -/
inductive Resolves (state : State) (visit : Visit) (unit : Text) (body : List Node) : Step → Prop where
  | cycle {fault} (inside : unit ∈ state.imports) (silent : visit.code = [])
      (kind : fault.kind = .importCycle) : Resolves state visit unit body (.fail visit fault)
  | included (outside : unit ∉ state.imports) (known : unit ∈ state.files)
      (emits : visit.code = noteIncluded unit) : Resolves state visit unit body (.done visit state.env)
  | begun (outside : unit ∉ state.imports) (fresh : unit ∉ state.files)
      (emits : visit.code = noteBegun unit) : Resolves state visit unit body (.unit visit unit body)

/-- A call of the function for units goes one of three ways. -/
theorem Calls.resolves {function : Function} {bindings : Bindings} {target : Text} {token : Token}
    (call : Calls state.env visit.node function bindings) (hvisit : visit.code = [])
    (action : function.action = .expandUnit)
    (path : Bindings.str? bindings "path" = some (target, token))
    (loaded : loader target visit.file = ⟨unit, .ok body⟩) :
    Resolves state (step loader state visit).record unit body (step loader state visit) := by
  rw [step_of_calls loader call, stepCall, action]
  simp only [stepUnit, called, path, loaded]
  split
  case isTrue hinside => exact .cycle (by simpa using hinside) hvisit rfl
  case isFalse houtside =>
    split
    case isTrue hknown => exact .included (by simpa using houtside) (by simpa using hknown) rfl
    case isFalse hfresh => exact .begun (by simpa using houtside) (by simpa using hfresh) rfl

/-- A visit that has bound arguments has bound those of a call. -/
theorem Acts.calls_of_bindings (h : Acts loader state visit outcome) (hvisit : visit.bindings = [])
    (hbound : outcome.record.bindings ≠ []) :
    ∃ function, Calls state.env visit.node function outcome.record.bindings ∧
      outcome.record.function = some function := by
  cases h with
  | fail began =>
    cases began with
    | start | found => exact absurd hvisit hbound
    | bound call => exact ⟨_, call, rfl⟩
  | splice => exact absurd hvisit hbound
  | idle call | emit call | register call | define call | included call | unit call
  | template call | blockTemplate call => exact ⟨_, call, rfl⟩

variable {trail : List Visit} {file : Text} {node : Node}

/-- The step of a visit that asks for a unit goes one of three ways. -/
theorem resolves_of_unit?
    (hunit : (stepAt setup trail file node state).record.unit? setup.loader = some (unit, body)) :
    Resolves state (stepAt setup trail file node state).record unit body
      (stepAt setup trail file node state) := by
  have hacts := acts_of_stepAt (rfl : stepAt setup trail file node state = _)
  obtain ⟨hasks, target, token, hpath, hloaded⟩ := Visit.exists_of_unit? hunit
  obtain ⟨function, call, hfunction⟩ := hacts.calls_of_bindings rfl fun hnone => by
    rw [hnone] at hpath
    cases hpath
  rw [hacts.record_file] at hloaded
  exact call.resolves rfl ((Visit.asksForUnit_iff hfunction).mp hasks) hpath hloaded

end Steps

/-! ## The units of a state -/

/-- The units being expanded and the units read, told by the visits of an expansion. -/
structure KeepsUnits (loader : Loader) (name : Text) (trail : List Visit) (state : State) : Prop where
  stack_eq : state.imports = expandedUnits loader name trail.reverse
  files_eq : state.files = expandedUnits loader name state.visits.reverse
  stack_sublist : state.imports.Sublist state.files
  files_nodup : state.files.Nodup

namespace KeepsUnits

variable {loader : Loader} {name : Text} {trail : List Visit} {state after : State} {visit : Visit}

/-- A visit that expands no unit may be recorded. -/
theorem record (h : KeepsUnits loader name trail state) (hvisit : visit.expanded? loader = none)
    (env : Env) : KeepsUnits loader name trail { state.record visit with env } where
  stack_eq := h.stack_eq
  files_eq := by simp [State.record, h.files_eq, expandedUnits, hvisit]
  stack_sublist := h.stack_sublist
  files_nodup := h.files_nodup

/-- A visit that expands no unit may be around a point, or not. -/
theorem cons_iff (hvisit : visit.expanded? loader = none) :
    KeepsUnits loader name (visit :: trail) state ↔ KeepsUnits loader name trail state := by
  have hstack : expandedUnits loader name (visit :: trail).reverse =
      expandedUnits loader name trail.reverse := by simp [expandedUnits, hvisit]
  constructor <;> intro h
  · exact ⟨hstack ▸ h.stack_eq, h.files_eq, h.stack_sublist, h.files_nodup⟩
  · exact ⟨hstack.symm ▸ h.stack_eq, h.files_eq, h.stack_sublist, h.files_nodup⟩

/-- A new unit may be begun. -/
theorem beginUnit (h : KeepsUnits loader name trail state)
    (hvisit : visit.expanded? loader = some unit) (hfresh : unit ∉ state.files) :
    KeepsUnits loader name (visit :: trail) ((state.record visit).beginUnit unit) where
  stack_eq := by simp [State.record, State.beginUnit, h.stack_eq, expandedUnits, hvisit]
  files_eq := by simp [State.record, State.beginUnit, h.files_eq, expandedUnits, hvisit]
  stack_sublist := h.stack_sublist.append (List.Sublist.refl _)
  files_nodup := by
    refine List.nodup_append.mpr ⟨h.files_nodup, by simp, fun known hknown new hnew => ?_⟩
    rw [List.mem_singleton.mp hnew]
    exact fun heq => hfresh (heq ▸ hknown)

/-- The unit begun last may be ended. -/
theorem endUnit (h : KeepsUnits loader name (visit :: trail) after)
    (hvisit : visit.expanded? loader = some unit) : KeepsUnits loader name trail after.endUnit where
  stack_eq := by
    have hstack : after.imports = expandedUnits loader name trail.reverse ++ [unit] := by
      simp [h.stack_eq, expandedUnits, hvisit]
    rw [State.endUnit, hstack, List.dropLast_concat]
  files_eq := h.files_eq
  stack_sublist := (List.dropLast_sublist _).trans h.stack_sublist
  files_nodup := h.files_nodup

end KeepsUnits

/-- Steps keep the units of a state in line with its visits. -/
theorem keepsUnits_kept (setup : Setup) (name : Text) :
    Kept setup (fun trail _ state => KeepsUnits setup.loader name trail state) (fun _ _ => True) where
  done := by
    intro trail file node state record env hstate _ hstep
    exact hstate.record ((acts_of_stepAt hstep).expanded?_record rfl) env
  enter := by
    intro trail file node state record scope body origin hstate _ hstep
    have hrecord := (acts_of_stepAt hstep).expanded?_record rfl
    exact ⟨(KeepsUnits.cons_iff hrecord).mpr (hstate.record hrecord _), fun _ _ => trivial⟩
  leave := by
    intro trail file node state record scope body origin after _ _ hstep hafter
    have hrecord := (acts_of_stepAt hstep).expanded?_record rfl
    have hlast := (KeepsUnits.cons_iff hrecord).mp hafter
    exact ⟨hlast.stack_eq, hlast.files_eq, hlast.stack_sublist, hlast.files_nodup⟩
  unit := by
    intro trail file node state record unit body hstate _ hstep
    have hacts := acts_of_stepAt hstep
    refine ⟨hstate.beginUnit (hacts.expanded?_record rfl) ?_, fun _ _ => trivial⟩
    cases hacts with
    | unit _ _ _ _ _ fresh => exact fresh
  endUnit := by
    intro trail file node state record unit body after _ _ hstep hafter
    exact hafter.endUnit ((acts_of_stepAt hstep).expanded?_record rfl)

/-- At every point reached, the units of the state are told by the visits. -/
theorem keepsUnits_of_reached {setup : Setup} {frame : Frame} (h : Reached setup name body frame) :
    KeepsUnits setup.loader name frame.trail frame.state := by
  refine ((keepsUnits_kept setup name).reached ?_ (fun _ _ => trivial) h).1
  refine ⟨rfl, ?_, List.Sublist.refl _, by simp [State.initial]⟩
  have hroot : (Visit.root name body).expanded? setup.loader = none := Visit.expanded?_of_code_nil rfl
  simp [State.initial, expandedUnits, hroot]

/-! ## Visits that ask for a unit -/

section Inclusion

variable {setup : Setup} {levels : Nat} {trail earlier later : List Visit} {file unit : Text}
  {node : Node} {rest body : List Node} {state : State} {whole : Progress} {visit : Visit}

/-- A visit that asks for a unit is within the limit, and its step goes one of three ways. -/
theorem Frame.Makes.resolves
    (h : Frame.Makes setup whole ⟨levels, trail, file, node :: rest, state⟩ earlier visit later)
    (hunit : visit.unit? setup.loader = some (unit, body)) :
    ∃ less, levels = less + 1 ∧
      Resolves state visit unit body (stepAt setup trail file node state) := by
  cases levels with
  | zero =>
    cases h.records with
    | tooDeep => cases hunit
  | succ less =>
    obtain rfl := h.record_eq
    exact ⟨less, rfl, resolves_of_unit? hunit⟩

/-- An expansion stops for a cycle exactly at a visit that asks for a unit being expanded. -/
theorem Frame.Makes.cycle_iff
    (h : Frame.Makes setup whole ⟨levels, trail, file, node :: rest, state⟩ earlier visit later)
    (hwhole : whole.visits = earlier ++ visit :: later)
    (hunit : visit.unit? setup.loader = some (unit, body)) :
    whole.StopsAt visit later .importCycle ↔ unit ∈ state.imports := by
  obtain ⟨less, rfl, hresolves⟩ := h.resolves hunit
  rw [h.stopsAt_iff hwhole]
  generalize stepAt setup trail file node state = outcome at hresolves
  cases hresolves with
  | @cycle fault inside _ kind => exact ⟨fun _ => inside, fun _ => ⟨fault, rfl, kind⟩⟩
  | included outside | begun outside =>
    refine ⟨fun ⟨_, hfail, _⟩ => ?_, fun hinside => absurd hinside outside⟩
    cases hfail

/-- A visit does nothing exactly if it asks for a unit that has been expanded and is not being
expanded. -/
theorem Frame.Makes.included_iff
    (h : Frame.Makes setup whole ⟨levels, trail, file, node :: rest, state⟩ earlier visit later)
    (hunit : visit.unit? setup.loader = some (unit, body)) :
    visit.code = noteIncluded unit ∧ visit.below later = [] ↔
      unit ∉ state.imports ∧ unit ∈ state.files := by
  obtain ⟨less, rfl, hresolves⟩ := h.resolves hunit
  generalize hstep : stepAt setup trail file node state = outcome at hresolves
  cases hresolves with
  | cycle inside silent =>
    refine ⟨fun ⟨hcode, _⟩ => ?_, fun ⟨houtside, _⟩ => absurd inside houtside⟩
    rw [silent] at hcode
    cases hcode
  | included outside known emits =>
    have hfirst : (Frame.first setup ⟨less + 1, trail, file, node :: rest, state⟩).visits =
        earlier ++ [visit] := by
      rw [Frame.first_cons, visit_succ, hstep, ← h.earlier_eq]
      exact List.reverse_cons
    exact ⟨fun _ => ⟨outside, known⟩, fun _ => ⟨emits, h.below_eq_nil hfirst⟩⟩
  | begun _ fresh emits =>
    refine ⟨fun ⟨hcode, _⟩ => ?_, fun ⟨_, hknown⟩ => absurd hknown fresh⟩
    exact absurd (hcode.symm.trans emits) (noteIncluded_ne_noteBegun unit)

/-- A visit expands the unit it asks for exactly if that has not been expanded. -/
theorem Frame.Makes.begun_iff
    (h : Frame.Makes setup whole ⟨levels, trail, file, node :: rest, state⟩ earlier visit later)
    (hunit : visit.unit? setup.loader = some (unit, body)) :
    visit.code = noteBegun unit ↔ unit ∉ state.imports ∧ unit ∉ state.files := by
  obtain ⟨less, rfl, hresolves⟩ := h.resolves hunit
  generalize stepAt setup trail file node state = outcome at hresolves
  cases hresolves with
  | cycle inside silent =>
    refine ⟨fun hcode => ?_, fun ⟨houtside, _⟩ => absurd inside houtside⟩
    rw [silent] at hcode
    cases hcode
  | included _ known emits =>
    refine ⟨fun hcode => ?_, fun ⟨_, hfresh⟩ => absurd known hfresh⟩
    exact absurd (emits.symm.trans hcode) (noteIncluded_ne_noteBegun unit)
  | begun outside fresh emits => exact ⟨fun _ => ⟨outside, fresh⟩, fun _ => emits⟩

/-- A unit that is expanded is visited expression by expression. -/
theorem Frame.Makes.children_of_begun
    (h : Frame.Makes setup whole ⟨levels, trail, file, node :: rest, state⟩ earlier visit later)
    (hunit : visit.unit? setup.loader = some (unit, body)) (hcode : visit.code = noteBegun unit) :
    (visit.children later).map Visit.subject <+: body.map (fun child => (child, unit)) ∧
      ∀ last, whole = .ready last →
        (visit.children later).map Visit.subject = body.map fun child => (child, unit) := by
  obtain ⟨less, rfl, hresolves⟩ := h.resolves hunit
  obtain ⟨houtside, hfresh⟩ := (h.begun_iff hunit).mp hcode
  generalize hstep : stepAt setup trail file node state = outcome at hresolves
  cases hresolves with
  | cycle inside => exact absurd inside houtside
  | included _ known => exact absurd known hfresh
  | begun => exact h.children_of_descends (.unit hstep)

end Inclusion

/-- What a visit does about the unit it asks for, given the visits before and after it. -/
structure Includes (library : Library) (whole : Progress) (name : Text) (earlier : List Visit)
    (visit : Visit) (later : List Visit) (unit : Text) (body : List Node) : Prop where
  /-- The unit is the file of that name, and the name is in its shortest form. -/
  stored : Library.isName unit = true ∧
    ∃ text, library.find? unit = some (.file text) ∧ Source.parse text = .ok body
  /-- It is a cycle exactly if the unit is being expanded around the visit. -/
  cycle_iff : whole.StopsAt visit later .importCycle ↔
    unit ∈ expandedUnits library.loader name (visit.around earlier).reverse
  /-- Nothing is done exactly if the unit has been expanded before. -/
  included_iff : visit.code = noteIncluded unit ∧ visit.below later = [] ↔
    unit ∉ expandedUnits library.loader name (visit.around earlier).reverse ∧
      unit ∈ expandedUnits library.loader name earlier
  /-- Otherwise the unit is expanded. -/
  begun_iff : visit.code = noteBegun unit ↔
    unit ∉ expandedUnits library.loader name (visit.around earlier).reverse ∧
      unit ∉ expandedUnits library.loader name earlier
  children : visit.code = noteBegun unit →
    (visit.children later).map Visit.subject <+: body.map (fun child => (child, unit)) ∧
      ∀ last, whole = .ready last →
        (visit.children later).map Visit.subject = body.map fun child => (child, unit)

/-- What a library loads is a file, and its name is in its shortest form. -/
theorem stored_of_loader {target origin : Text}
    (h : library.loader target origin = ⟨unit, .ok body⟩) :
    Library.isName unit = true ∧
      ∃ text, library.find? unit = some (.file text) ∧ Source.parse text = .ok body := by
  obtain ⟨entry, hopen, hparse⟩ := Library.exists_find?_of_loader (congrArg Loaded.content h)
  rw [h] at hopen hparse
  have hname : Library.isName unit = true := by
    cases hname : Library.isName unit with
    | true => rfl
    | false => simp [Library.find?, hname] at hopen
  cases entry with
  | file text => exact ⟨hname, text, hopen, hparse⟩
  | directory => cases hparse

/-- The visits around a visit expand the units that are being expanded at its point. -/
theorem expandedUnits_around (loader : Loader) (name : Text) (body : List Node) (trail : List Visit) :
    expandedUnits loader name (trail ++ [Visit.root name body]).reverse =
      expandedUnits loader name trail.reverse := by
  have hroot : (Visit.root name body).expanded? loader = none := Visit.expanded?_of_code_nil rfl
  simp [expandedUnits, hroot]

/-- A visit that asks for a unit looks at the units being expanded and those read. -/
theorem includes_of_unit? {limit : Nat} {content : List Node} {earlier later : List Visit}
    {visit : Visit}
    (hvisits : (run ⟨library.loader, limit⟩ name body).visits = earlier ++ visit :: later)
    (hunit : visit.unit? library.loader = some (unit, content)) :
    Includes library (run ⟨library.loader, limit⟩ name body) name earlier visit later unit content := by
  have hearlier : earlier ≠ [] := by
    rintro rfl
    obtain ⟨added, hadded⟩ := exists_visits_eq ⟨library.loader, limit⟩ name body
    obtain rfl := (List.cons.inj (hadded.symm.trans hvisits)).1
    cases hunit
  obtain ⟨frame, hreached, hmakes⟩ := exists_reached_of_visits hvisits hearlier
  have hunits := keepsUnits_of_reached hreached
  have hstack : frame.state.imports =
      expandedUnits library.loader name (visit.around earlier).reverse := by
    rw [hmakes.around_eq hreached, expandedUnits_around, hunits.stack_eq]
  have hknown : frame.state.files = expandedUnits library.loader name earlier := by
    rw [← hmakes.earlier_eq, hunits.files_eq]
  obtain ⟨_, target, token, _, hloaded⟩ := Visit.exists_of_unit? hunit
  obtain ⟨levels, trail, file, nodes, state⟩ := frame
  cases nodes with
  | nil => cases hmakes.records
  | cons node rest =>
    exact
      { stored := stored_of_loader hloaded
        cycle_iff := by rw [hmakes.cycle_iff hvisits hunit, ← hstack]
        included_iff := by rw [hmakes.included_iff hunit, ← hstack, ← hknown]
        begun_iff := by rw [hmakes.begun_iff hunit, ← hstack, ← hknown]
        children := hmakes.children_of_begun hunit }

/-- Units read once are expanded by one visit each, but for the main unit. -/
theorem countP_expanded? {loader : Loader} {visits : List Visit}
    (hnodup : (expandedUnits loader name visits).Nodup)
    (hunit : unit ∈ expandedUnits loader name visits) :
    visits.countP (fun visit => visit.expanded? loader == some unit) = if unit = name then 0 else 1 := by
  obtain ⟨hmain, hothers⟩ := List.nodup_cons.mp hnodup
  rw [← List.count_filterMap]
  split
  case isTrue heq => rw [heq, List.count_eq_zero_of_not_mem hmain]
  case isFalse hne =>
    exact List.count_eq_one_of_mem hothers ((List.mem_cons.mp hunit).resolve_left hne)

/-- Whatever the files of a library, the main unit and the limit on the depth: at every point of
the expansion the units being expanded are the main unit and those that the visits around the
point expand, each once, and they are among the units read, each of these once too. A visit that
asks for a unit is a cycle if the unit is being expanded, does nothing if it has been read, and
expands it otherwise. In a build, the units read are the main unit and those that visits expand in
their order, every one by exactly one visit. -/
theorem units_expanded_once (library : Library) (limit : Nat) (name : Text) (body : List Node) :
    (∀ frame, Reached ⟨library.loader, limit⟩ name body frame →
      frame.state.imports = expandedUnits library.loader name frame.trail.reverse ∧
        frame.state.imports.Nodup ∧ frame.state.imports ⊆ frame.state.files ∧
          frame.state.files = expandedUnits library.loader name frame.state.visits.reverse ∧
            frame.state.files.Nodup) ∧
      (∀ earlier visit later,
        (run ⟨library.loader, limit⟩ name body).visits = earlier ++ visit :: later →
          ∀ unit content, visit.unit? library.loader = some (unit, content) →
            Includes library (run ⟨library.loader, limit⟩ name body) name earlier visit later unit
              content) ∧
        ∀ build, (run ⟨library.loader, limit⟩ name body).build = .ok build →
          build.files = expandedUnits library.loader name build.visits ∧ build.files.Nodup ∧
            ∀ unit ∈ build.files,
              build.visits.countP (fun visit => visit.expanded? library.loader == some unit) =
                if unit = name then 0 else 1 := by
  refine ⟨fun frame hreached => ?_, fun earlier visit later hvisits unit content hunit =>
    includes_of_unit? hvisits hunit, fun build hbuild => ?_⟩
  · have hunits := keepsUnits_of_reached hreached
    exact ⟨hunits.stack_eq, hunits.files_nodup.sublist hunits.stack_sublist,
      hunits.stack_sublist.subset, hunits.files_eq, hunits.files_nodup⟩
  · cases hrun : run ⟨library.loader, limit⟩ name body with
    | stopped last error =>
      rw [hrun] at hbuild
      cases hbuild
    | ready last =>
      rw [hrun] at hbuild
      cases hbuild
      have hunits := keepsUnits_of_reached (reached_end hrun)
      refine ⟨hunits.files_eq, hunits.files_nodup, fun unit hunit => ?_⟩
      exact countP_expanded? (hunits.files_eq ▸ hunits.files_nodup) (hunits.files_eq ▸ hunit)

/-- A unit that asks for another at once and in a template, and a unit that asks for itself. -/
def corners : Library :=
  ⟨[("lib/a", "macro global again\n    import 'b'\nimport 'b'\n"), ("lib/b", "reg x\n"),
    ("loop", "macro global round\n    import '/loop'\nround\n")]⟩

/-- A source that asks for the same units by other paths, and through the template. -/
def diamond : Text := "import 'lib/a'\nagain\nimport './lib/../lib/b'\nimport '/lib/a'\n"

/-- The template asks for its unit again when the unit that defines it is done, and nothing
happens. A unit that asks for itself through a template is a cycle. -/
theorem units_expanded_once_diamond :
    (∃ body build earlier visit later content, Source.parse diamond = .ok body ∧
      (run ⟨corners.loader, 8⟩ "main" body).build = .ok build ∧
        Text.ofString "lib/b" ∈ build.files ∧
          build.visits.countP (fun visit =>
              visit.expanded? corners.loader == some (Text.ofString "lib/b")) = 1 ∧
            (run ⟨corners.loader, 8⟩ "main" body).visits = earlier ++ visit :: later ∧
              visit.unit? corners.loader = some (Text.ofString "lib/b", content) ∧
                visit.code = noteIncluded "lib/b" ∧ visit.below later = []) ∧
      ∃ body earlier visit later content, Source.parse "import 'loop'\n" = .ok body ∧
        (run ⟨corners.loader, 8⟩ "main" body).visits = earlier ++ visit :: later ∧
          visit.unit? corners.loader = some (Text.ofString "loop", content) ∧
            (run ⟨corners.loader, 8⟩ "main" body).StopsAt visit later .importCycle := by
  constructor
  · have hfiles : (Source.parse diamond).toOption.bind (fun body =>
        (run ⟨corners.loader, 8⟩ "main" body).build.toOption.map Build.files) =
        some [Text.ofString "main", Text.ofString "lib/a", Text.ofString "lib/b"] := by decide +kernel
    have hplace : (Source.parse diamond).toOption.map (fun body =>
        let visits := (run ⟨corners.loader, 8⟩ "main" body).visits
        visits[6]?.map fun visit => ((visit.unit? corners.loader).map Prod.fst,
          expandedUnits corners.loader "main" (visit.around (visits.take 6)).reverse,
          expandedUnits corners.loader "main" (visits.take 6))) =
        some (some (some (Text.ofString "lib/b"), [Text.ofString "main"],
          [Text.ofString "main", Text.ofString "lib/a", Text.ofString "lib/b"])) := by decide +kernel
    obtain ⟨body, hparse, hfiles⟩ := Option.bind_eq_some_iff.mp hfiles
    obtain ⟨build, hbuild, hfiles⟩ := Option.map_eq_some_iff.mp hfiles
    rw [hparse, Option.map_some, Option.some.injEq] at hplace
    obtain ⟨visit, hvisit, hplace⟩ := Option.map_eq_some_iff.mp hplace
    simp only [Prod.mk.injEq] at hplace
    obtain ⟨hname, hstack, hknown⟩ := hplace
    obtain ⟨⟨unit, content⟩, hunit, rfl⟩ := Option.map_eq_some_iff.mp hname
    obtain ⟨_, hincludes, hbuilds⟩ := units_expanded_once corners 8 "main" body
    have hvisits := Visit.eq_append_of_getElem? hvisit
    have hmember : Text.ofString "lib/b" ∈ build.files := by rw [hfiles]; decide
    obtain ⟨_, _, honce⟩ := hbuilds build (eq_ok_of_toOption hbuild)
    obtain ⟨hcode, hbelow⟩ := (hincludes _ _ _ hvisits _ content hunit).included_iff.mpr
      ⟨by rw [hstack]; decide, by rw [hknown]; decide⟩
    exact ⟨body, build, _, visit, _, content, eq_ok_of_toOption hparse, eq_ok_of_toOption hbuild,
      hmember, (honce _ hmember).trans (by decide), hvisits, hunit, hcode, hbelow⟩
  · have hplace : (Source.parse "import 'loop'\n").toOption.map (fun body =>
        let visits := (run ⟨corners.loader, 8⟩ "main" body).visits
        visits[4]?.map fun visit => ((visit.unit? corners.loader).map Prod.fst,
          expandedUnits corners.loader "main" (visit.around (visits.take 4)).reverse)) =
        some (some (some (Text.ofString "loop"), [Text.ofString "main", Text.ofString "loop"])) := by
      decide +kernel
    obtain ⟨body, hparse, hplace⟩ := Option.map_eq_some_iff.mp hplace
    obtain ⟨visit, hvisit, hplace⟩ := Option.map_eq_some_iff.mp hplace
    obtain ⟨hname, hstack⟩ := Prod.mk.inj hplace
    obtain ⟨⟨unit, content⟩, hunit, rfl⟩ := Option.map_eq_some_iff.mp hname
    obtain ⟨_, hincludes, _⟩ := units_expanded_once corners 8 "main" body
    have hvisits := Visit.eq_append_of_getElem? hvisit
    exact ⟨body, _, visit, _, content, eq_ok_of_toOption hparse, hvisits, hunit,
      (hincludes _ _ _ hvisits _ content hunit).cycle_iff.mpr (by rw [hstack]; decide)⟩

end Expansion

end Tapestry

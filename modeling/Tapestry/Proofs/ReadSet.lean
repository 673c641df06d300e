import Tapestry.Proofs.DepthLimit
import Tapestry.Proofs.UnitInclusion

/-!
# What a build depends on

An expansion looks at the files around it only through the units that its visits ask for. Where
two loaders answer these alike, it goes the same way, whether it comes to its end or stops.

In a build every unit that a visit asks for has been read, so it is among the files of the build.
A library answers alike if the same names can be opened in it and those files are the same: the
files of a build are all that it depends on.
-/

namespace Tapestry

namespace Visit

/-- The path that a visit asks for, and the unit that asks. -/
def request? (visit : Visit) : Option (Text × Text) :=
  if visit.asksForUnit then
    (Bindings.str? visit.bindings "path").map fun (target, _) => (target, visit.file)
  else none

/-- Two loaders answer a visit alike. -/
def AnsweredAlike (loader other : Loader) (visit : Visit) : Prop :=
  ∀ target origin, visit.request? = some (target, origin) →
    other target origin = loader target origin

/-- A visit that asks for a path calls the function for units with it. -/
theorem exists_of_request? {visit : Visit} {target origin : Text}
    (h : visit.request? = some (target, origin)) :
    visit.asksForUnit = true ∧ origin = visit.file ∧
      ∃ token, Bindings.str? visit.bindings "path" = some (target, token) := by
  unfold request? at h
  split at h
  case isTrue hasks =>
    obtain ⟨⟨path, token⟩, hpath, heq⟩ := Option.map_eq_some_iff.mp h
    cases heq
    exact ⟨hasks, rfl, token, hpath⟩
  case isFalse => cases h

/-- A visit that asks for a unit by a path requests it. -/
theorem request?_of_path {visit : Visit} {target : Text} {token : Token}
    (hasks : visit.asksForUnit = true)
    (hpath : Bindings.str? visit.bindings "path" = some (target, token)) :
    visit.request? = some (target, visit.file) := by
  simp [request?, hasks, hpath]

end Visit

namespace Expansion

section Agreement

variable {loader other : Loader} {limit levels : Nat} {trail : List Visit} {file : Text} {node : Node}
  {nodes : List Node} {state : State}

/-- The record of a call for a unit keeps what is asked for. -/
theorem request?_stepUnit (loader : Loader) (state : State) (visit : Visit) :
    (stepUnit loader state visit).record.request? = visit.request? := by
  unfold stepUnit
  split
  case h_1 => rfl
  case h_2 =>
    dsimp only
    split
    case h_1 => rfl
    case h_2 =>
      split
      case isTrue => rfl
      case isFalse => split <;> rfl

/-- A call for a unit looks at units only through what it asks for. -/
theorem stepUnit_congr {visit : Visit} (hasks : visit.asksForUnit = true)
    (h : visit.AnsweredAlike loader other) :
    stepUnit other state visit = stepUnit loader state visit := by
  unfold stepUnit
  cases hpath : Bindings.str? visit.bindings "path" with
  | none => rfl
  | some found =>
    obtain ⟨target, token⟩ := found
    dsimp only
    rw [h target visit.file (Visit.request?_of_path hasks hpath)]

/-- A step looks at units only through what its visit asks for. -/
theorem step_congr {visit : Visit}
    (h : (step loader state visit).record.AnsweredAlike loader other) :
    step other state visit = step loader state visit := by
  -- Only a call of the function for units looks at them.
  have hcall {function : Function} {bindings : Bindings}
      (call : Calls state.env visit.node function bindings) :
      stepCall other state (called state.env visit function bindings) function =
        stepCall loader state (called state.env visit function bindings) function := by
    rw [step_of_calls loader call] at h
    cases haction : function.action with
    | expandUnit =>
      simp only [stepCall, haction] at h ⊢
      refine stepUnit_congr ((Visit.asksForUnit_iff rfl).mpr haction) ?_
      rwa [Visit.AnsweredAlike, request?_stepUnit] at h
    | _ => simp only [stepCall, haction]
  unfold step
  split
  case h_1 => rfl
  case h_2 hnode =>
    split
    case h_1 => rfl
    case h_2 function hresolved =>
      dsimp only
      split
      case h_1 => rfl
      case h_2 hshaped =>
        split
        case h_1 => rfl
        case h_2 bindings hbound => exact hcall ⟨hnode, hresolved, hshaped, hbound⟩

/-- What the first expression of a list records, the list records. -/
theorem visits_subset_visitAll {setup : Setup} {rest : List Node} :
    (visit setup levels trail file node state).visits ⊆
      (visitAll (visit setup levels trail file) (node :: rest) state).visits := by
  rw [visitAll]
  cases hfirst : visit setup levels trail file node state with
  | stopped last error => exact List.Subset.refl _
  | ready middle =>
    obtain ⟨_, added, _, _, hadded, _⟩ :=
      visitAll_siblings (visit_siblings setup levels trail file) rest middle
    rw [Progress.andThen, hadded]
    exact List.subset_append_left _ added

/-- A visit goes the same way with another loader that answers alike everything below it. -/
theorem visit_congr
    (h : ∀ v ∈ (visit ⟨loader, limit⟩ levels trail file node state).visits,
      v.AnsweredAlike loader other) :
    visit ⟨other, limit⟩ levels trail file node state =
      visit ⟨loader, limit⟩ levels trail file node state := by
  induction levels generalizing trail file node state with
  | zero => rfl
  | succ less ih =>
    obtain ⟨record, below, hrecords, hvisits, _⟩ :=
      visit_siblings ⟨loader, limit⟩ (less + 1) trail file node state
    obtain rfl : (stepAt ⟨loader, limit⟩ trail file node state).record = record := by
      cases hrecords [] with
      | step => rfl
    have hown : (stepAt ⟨loader, limit⟩ trail file node state).record.AnsweredAlike loader other := by
      apply h
      rw [hvisits]
      exact List.mem_append_right _ List.mem_cons_self
    refine visit_succ_congr (step_congr hown) fun hdescends => ?_
    rw [hdescends.visits_eq] at h
    exact visitAll_congr (fun progress => ∀ v ∈ progress.visits, v.AnsweredAlike loader other)
      (fun _ _ _ hall v hv => hall v (visits_subset_visitAll hv)) (fun _ _ => ih) h

/-- An expansion goes the same way with another loader that answers alike all its visits. -/
theorem run_congr {name : Text} {body : List Node}
    (h : ∀ v ∈ (run ⟨loader, limit⟩ name body).visits, v.AnsweredAlike loader other) :
    run ⟨other, limit⟩ name body = run ⟨loader, limit⟩ name body :=
  visitAll_congr (fun progress => ∀ v ∈ progress.visits, v.AnsweredAlike loader other)
    (fun _ _ _ hall v hv => hall v (visits_subset_visitAll hv)) (fun _ _ => visit_congr) h

end Agreement

/-! ## What a build has read -/

/-- Every unit that a visit asked for has been read. -/
def Answered (loader : Loader) (state : State) : Prop :=
  ∀ visit ∈ state.visits, ∀ target origin, visit.request? = some (target, origin) →
    ∃ unit ∈ state.files, ∃ body, loader target origin = ⟨unit, .ok body⟩

section Reading

variable {loader : Loader} {state : State} {visit : Visit} {outcome : Step}

/-- A step that goes on and asks for a unit has read it, before or now. -/
theorem Acts.answered (h : Acts loader state visit outcome) (hvisit : visit.function = none)
    (hgoes : ∀ record fault, outcome ≠ .fail record fault) {target origin : Text}
    (hrequest : outcome.record.request? = some (target, origin)) :
    ∃ unit body, loader target origin = ⟨unit, .ok body⟩ ∧
      (unit ∈ state.files ∨ outcome.begun? = some unit) := by
  obtain ⟨hasks, rfl, token, hpath⟩ := Visit.exists_of_request? hrequest
  cases h with
  | fail => exact absurd rfl (hgoes _ _)
  | splice => simp [Step.record, Visit.asksForUnit, hvisit] at hasks
  | idle call missing =>
    refine absurd ?_ missing
    rw [(Visit.asksForUnit_iff rfl).mp hasks]
    exact Option.isSome_iff_exists.mpr ⟨_, hpath⟩
  | emit call action | register call action | define call action | template call action
  | blockTemplate call action =>
    have hunit := (Visit.asksForUnit_iff rfl).mp hasks
    rw [action] at hunit
    cases hunit
  | included call action path loaded outside known =>
    obtain ⟨rfl, rfl⟩ := Prod.mk.inj (Option.some.inj (path.symm.trans hpath))
    exact ⟨_, _, by rw [← loaded]; rfl, .inl known⟩
  | unit call action path loaded =>
    obtain ⟨rfl, rfl⟩ := Prod.mk.inj (Option.some.inj (path.symm.trans hpath))
    exact ⟨_, _, by rw [← loaded]; rfl, .inr rfl⟩

/-- A visit that has read what it asked for may be recorded. -/
theorem Answered.record {files : List Text} (h : Answered loader state) (hfiles : state.files ⊆ files)
    (hvisit : ∀ target origin, visit.request? = some (target, origin) →
      ∃ unit ∈ files, ∃ body, loader target origin = ⟨unit, .ok body⟩)
    (env : Env) (imports : List Text) :
    Answered loader ⟨env, imports, files, visit :: state.visits⟩ := by
  intro other hother target origin hrequest
  rcases List.mem_cons.mp hother with rfl | hold
  · exact hvisit target origin hrequest
  · obtain ⟨unit, hunit, hloaded⟩ := h other hold target origin hrequest
    exact ⟨unit, hfiles hunit, hloaded⟩

/-- Going on reads every unit asked for. -/
theorem answered_kept (setup : Setup) :
    Kept setup (fun _ _ state => Answered setup.loader state) (fun _ _ => True) where
  done := by
    intro trail file node state record env hstate _ hstep
    refine hstate.record (List.Subset.refl _) (fun target origin hrequest => ?_) _ _
    obtain ⟨unit, body, hloaded, hknown | hbegun⟩ :=
      (acts_of_stepAt hstep).answered rfl (by simp) hrequest
    · exact ⟨unit, hknown, body, hloaded⟩
    · cases hbegun
  enter := by
    intro trail file node state record scope body origin hstate _ hstep
    refine ⟨hstate.record (List.Subset.refl _) (fun target asker hrequest => ?_) _ _,
      fun _ _ => trivial⟩
    obtain ⟨unit, body, hloaded, hknown | hbegun⟩ :=
      (acts_of_stepAt hstep).answered rfl (by simp) hrequest
    · exact ⟨unit, hknown, body, hloaded⟩
    · cases hbegun
  leave _ _ _ hafter := hafter
  unit := by
    intro trail file node state record name body hstate _ hstep
    refine ⟨hstate.record (List.subset_append_left _ _) (fun target origin hrequest => ?_) _ _,
      fun _ _ => trivial⟩
    obtain ⟨unit, body, hloaded, hknown | hbegun⟩ :=
      (acts_of_stepAt hstep).answered rfl (by simp) hrequest
    · exact ⟨unit, List.mem_append_left _ hknown, body, hloaded⟩
    · cases hbegun
      exact ⟨_, List.mem_append_right _ List.mem_cons_self, body, hloaded⟩
  endUnit _ _ _ hafter := hafter

/-- An expansion that comes to its end has read every unit asked for. -/
theorem answered_of_ready {setup : Setup} {name : Text} {body : List Node} {last : State}
    (h : run setup name body = .ready last) : Answered setup.loader last := by
  refine ((answered_kept setup).reached ?_ (fun _ _ => trivial) (reached_end h)).1
  intro visit hvisit target origin hrequest
  obtain rfl := List.mem_singleton.mp hvisit
  cases hrequest

/-- An expansion that comes to its end goes the same way with another loader that loads alike every
unit that its visits asked for. -/
theorem run_congr_of_ready {other : Loader} {limit : Nat} {name : Text} {body : List Node}
    {last : State} (hrun : run ⟨loader, limit⟩ name body = .ready last)
    (h : ∀ visit ∈ last.visits, ∀ target origin, visit.request? = some (target, origin) →
      ∀ unit ∈ last.files, ∀ content,
        loader target origin = ⟨unit, .ok content⟩ → other target origin = ⟨unit, .ok content⟩) :
    run ⟨other, limit⟩ name body = .ready last := by
  rw [← hrun]
  apply run_congr
  intro visit hvisit target origin hrequest
  rw [hrun] at hvisit
  have hvisit : visit ∈ last.visits := List.mem_reverse.mp hvisit
  obtain ⟨unit, hunit, content, hloaded⟩ := answered_of_ready hrun visit hvisit target origin hrequest
  exact (h visit hvisit target origin hrequest unit hunit content hloaded).trans hloaded.symm

end Reading

end Expansion

/-! ## The files of a build -/

namespace Library

variable {library other : Library} {unit : Text}

/-- What can be opened is told by the names of the files. -/
theorem isSome_find?_iff {name : Text} :
    (library.find? name).isSome ↔ isName name = true ∧ (name ∈ library.files.map Prod.fst ∨
      name = Text.ofString "." ∨
        ∃ path ∈ library.files.map Prod.fst, name ++ [Path.slash] <+: path) := by
  have hbelow : library.hasBelow name = true ↔
      ∃ path ∈ library.files.map Prod.fst, name ++ [Path.slash] <+: path := by
    simp [hasBelow]
  have hlookup : (library.files.lookup name).isSome ↔ name ∈ library.files.map Prod.fst := by
    rw [List.lookup_isSome_iff]
    simp
  rw [← hbelow, ← hlookup, find?]
  cases isName name with
  | false => simp
  | true =>
    cases library.files.lookup name with
    | some contents => simp
    | none => by_cases hname : name = Text.ofString "." <;> cases library.hasBelow name <;> simp [hname]

/-- Libraries with the same names open the same names. -/
theorem isSome_find?_congr
    (h : ∀ name, name ∈ library.files.map Prod.fst ↔ name ∈ other.files.map Prod.fst) (name : Text) :
    (library.find? name).isSome = (other.find? name).isSome := by
  rw [Bool.eq_iff_iff, isSome_find?_iff, isSome_find?_iff]
  simp only [h]

/-- The first candidate that can be opened is the same where the same names can be opened. -/
theorem findSome?_find?_congr {entry : Entry} {names : List Text}
    (hopen : ∀ name, (library.find? name).isSome = (other.find? name).isSome)
    (hunit : other.find? unit = library.find? unit)
    (h : names.findSome? (fun name => (library.find? name).map fun entry => (name, entry)) =
      some (unit, entry)) :
    names.findSome? (fun name => (other.find? name).map fun entry => (name, entry)) =
      some (unit, entry) := by
  induction names with
  | nil => cases h
  | cons name rest ih =>
    rw [List.findSome?_cons] at h ⊢
    cases hname : library.find? name with
    | none =>
      have hother : other.find? name = none := by
        rw [← Option.not_isSome_iff_eq_none, ← hopen name, hname]
        exact Bool.false_ne_true
      rw [hname] at h
      rw [hother]
      exact ih h
    | some found =>
      rw [hname] at h
      cases h
      rw [hunit, hname]
      rfl

/-- A library loads a unit as another does in which the same names can be opened and the unit is the
same. -/
theorem loader_congr {target origin : Text} {body : List Node}
    (hopen : ∀ name, (library.find? name).isSome = (other.find? name).isSome)
    (hunit : other.find? unit = library.find? unit)
    (h : library.loader target origin = ⟨unit, .ok body⟩) :
    other.loader target origin = ⟨unit, .ok body⟩ := by
  unfold loader at h ⊢
  dsimp only at h ⊢
  split at h
  case h_1 name entry hfound =>
    obtain rfl : name = unit := congrArg Loaded.name h
    rw [findSome?_find?_congr hopen hunit hfound]
    exact h
  case h_2 => cases h

end Library

namespace Compiler

/-- The files of a build are all it depends on: whatever the main source, its name and the limit on
the depth, a build from one library is the build from any other in which the same names can be
opened and every file of the build is the same. -/
theorem build_depends_on_files (library other : Library) (depth : Int) (name source : Text)
    (build : Build)
    (hopen : ∀ path, (library.find? path).isSome = (other.find? path).isSome)
    (hbuild : Compiler.build ⟨library.loader, depth⟩ name source = some (.ok build))
    (hfiles : ∀ path ∈ build.files, other.find? path = library.find? path) :
    Compiler.build ⟨other.loader, depth⟩ name source = some (.ok build) := by
  obtain ⟨⟨loader, limit⟩, hworks, hresult⟩ := exists_setup_of_build hbuild
  obtain rfl : loader = library.loader := hworks.loader
  obtain ⟨body, last, hparse, hrun, rfl⟩ := Expansion.Setup.exists_ready_of_build hresult
  have hsame : Expansion.run ⟨other.loader, limit⟩ name body = .ready last :=
    Expansion.run_congr_of_ready hrun fun _ _ _ _ _ unit hunit _ hloaded =>
      Library.loader_congr hopen (hfiles unit hunit) hloaded
  have hworks' : WorksWith ⟨other.loader, depth⟩ ⟨other.loader, limit⟩ := ⟨rfl, hworks.limit⟩
  have hbody := buildBody_of_worksWith hworks' fun _ => hsame ▸ Expansion.withinLimit_ready last
  rw [Expansion.Setup.buildBody, hsame] at hbody
  rw [Compiler.build, hparse]
  exact hbody

/-- A library whose unit asks for another next to it, with a file of the same name at the top. -/
def shelf : Library :=
  ⟨[("lib/a", "import 'b'\nmacro global twice\n    __plus 2\n"), ("lib/b", "reg x\n"), ("b", "reg y\n")]⟩

/-- The same library with another text in the file at the top, and the files in another order. -/
def reshelved : Library :=
  ⟨[("b", "not a unit\n"), ("lib/b", "reg x\n"),
    ("lib/a", "import 'b'\nmacro global twice\n    __plus 2\n")]⟩

/-- The file at the top is not read, so the build is the same. -/
theorem build_depends_on_files_reshelved :
    ∃ build, (∀ path, (shelf.find? path).isSome = (reshelved.find? path).isSome) ∧
      Compiler.build ⟨shelf.loader, 9⟩ "main" "import 'lib/a'\ntwice\n" = some (.ok build) ∧
        (∀ path ∈ build.files, reshelved.find? path = shelf.find? path) ∧
          reshelved.find? "b" ≠ shelf.find? "b" ∧
            build.files = [Text.ofString "main", Text.ofString "lib/a", Text.ofString "lib/b"] ∧
              Compiler.build ⟨reshelved.loader, 9⟩ "main" "import 'lib/a'\ntwice\n" =
                some (.ok build) := by
  have hopen : ∀ path, (shelf.find? path).isSome = (reshelved.find? path).isSome := by
    apply Library.isSome_find?_congr
    intro name
    simp only [shelf, reshelved, List.map_cons, List.map_nil, List.mem_cons, List.not_mem_nil]
    grind
  have hread : (Expansion.Setup.build ⟨shelf.loader, 9⟩ "main" "import 'lib/a'\ntwice\n").toOption.map
      Build.files = some [Text.ofString "main", Text.ofString "lib/a", Text.ofString "lib/b"] := by
    decide +kernel
  obtain ⟨build, hbuild, hread⟩ := Option.map_eq_some_iff.mp hread
  have hfiles : ∀ path ∈ build.files, reshelved.find? path = shelf.find? path := by
    rw [hread]
    decide +kernel
  have hbuild := (build_of_limit (show limit? ⟨shelf.loader, 9⟩ = some 9 from rfl) _ _).trans
    (congrArg some (eq_ok_of_toOption hbuild))
  exact ⟨build, hopen, hbuild, hfiles, by decide +kernel, hread,
    build_depends_on_files shelf reshelved 9 _ _ build hopen hbuild hfiles⟩

end Compiler

end Tapestry

import Tapestry.Expansion.Workbench
import Tapestry.Proofs.UnitInclusion

/-!
# Compilers used again

A compiler that has carried out tasks before, whether they succeeded or not, gives the results of a
new one, since it begins its lists anew. What an expansion leaves behind is in order too. The visits
around a stop that were expanding a unit are those that ask for one, so ending their units leaves the
main unit alone.
-/

namespace Tapestry

namespace Expansion

variable {setup : Setup} {name : Text} {body : List Node}

/-- Around a point, the visits that ask for a unit are expanding it. -/
def UnitsOpen (loader : Loader) (trail : List Visit) : Prop :=
  ∀ visit ∈ trail, visit.asksForUnit = (visit.expanded? loader).isSome

/-- A body is entered by a visit that expands a unit or asks for none. -/
theorem unitsOpen_kept (setup : Setup) :
    Kept setup (fun trail _ _ => UnitsOpen setup.loader trail) (fun _ _ => True) where
  done h _ _ := h
  enter := by
    intro trail file node state record scope body origin htrail _ hstep
    refine ⟨List.forall_mem_cons.mpr ⟨?_, htrail⟩, fun _ _ => trivial⟩
    have hrecord : record.expanded? setup.loader = none := (acts_of_stepAt hstep).expanded?_record rfl
    rw [asksForUnit_of_enter hstep, hrecord, Option.isSome_none]
  leave h _ _ _ := h
  unit := by
    intro trail file node state record unit body htrail _ hstep
    refine ⟨List.forall_mem_cons.mpr ⟨?_, htrail⟩, fun _ _ => trivial⟩
    have hrecord : record.expanded? setup.loader = some unit := (acts_of_stepAt hstep).expanded?_record rfl
    rw [asksForUnit_of_unit hstep, hrecord, Option.isSome_some]
  endUnit h _ _ _ := h

/-- When the visits around a point have ended their units, the main unit is left. -/
theorem endUnits_expandedUnits {loader : Loader} {trail : List Visit} (h : UnitsOpen loader trail) :
    endUnits (expandedUnits loader name trail.reverse) trail = [name] := by
  induction trail with
  | nil => rfl
  | cons visit outer ih =>
    obtain ⟨hvisit, houter⟩ := List.forall_mem_cons.mp h
    rw [endUnits, hvisit]
    cases hunit : visit.expanded? loader with
    | none =>
      have hunits : expandedUnits loader name (visit :: outer).reverse =
          expandedUnits loader name outer.reverse := by simp [expandedUnits, hunit]
      rw [hunits, Option.isSome_none, if_neg Bool.false_ne_true]
      exact ih houter
    | some unit =>
      -- The innermost visit expands the unit listed last.
      have hunits : expandedUnits loader name (visit :: outer).reverse =
          expandedUnits loader name outer.reverse ++ [unit] := by simp [expandedUnits, hunit]
      rw [hunits, Option.isSome_some, if_pos rfl, List.dropLast_concat]
      exact ih houter

/-- However an expansion ends, its main unit is the only one left as being expanded. -/
theorem leftImports_run (setup : Setup) (name : Text) (body : List Node) :
    (run setup name body).leftImports = [name] := by
  cases hrun : run setup name body with
  | ready last => exact (keepsUnits_of_reached (reached_end hrun)).stack_eq
  | stopped last error =>
    -- The visit that fails has begun no unit; those to be ended belong to the visits around it.
    obtain ⟨frame, record, hreached, _, rfl, htrail⟩ := exists_reached_of_stopped hrun
    have hopen : UnitsOpen setup.loader frame.trail :=
      ((unitsOpen_kept setup).reached (fun _ h => by cases h) (fun _ _ => trivial) hreached).1
    have hstack : frame.state.imports = _ := (keepsUnits_of_reached hreached).stack_eq
    rw [Progress.leftImports, htrail, List.tail_cons, State.record, hstack]
    exact endUnits_expandedUnits hopen

/-- However an expansion ends, its main unit is the first of the units read, and none is listed
twice. -/
theorem leftFiles_run (setup : Setup) (name : Text) (body : List Node) :
    (run setup name body).leftFiles.head? = some name ∧ (run setup name body).leftFiles.Nodup := by
  have hkeeps {trail : List Visit} {state : State} (h : KeepsUnits setup.loader name trail state) :
      state.files.head? = some name ∧ state.files.Nodup := by
    refine ⟨?_, h.files_nodup⟩
    rw [h.files_eq, expandedUnits, List.head?_cons]
  cases hrun : run setup name body with
  | ready last => exact hkeeps (keepsUnits_of_reached (reached_end hrun))
  | stopped last error =>
    obtain ⟨frame, record, hreached, _, rfl, _⟩ := exists_reached_of_stopped hrun
    change frame.state.files.head? = some name ∧ frame.state.files.Nodup
    exact hkeeps (keepsUnits_of_reached hreached)

end Expansion

namespace Workbench

/-- The result of a task as a matter of the compiler alone, if it comes to one. -/
def Task.result (compiler : Compiler) : Task → Option (Except Error Build)
  | .tree name body => compiler.buildBody name body
  | .source name text => compiler.build name text

/-- A compiler that expands nothing. The first of the units it has read is the only one it may have
left as being expanded, and none is listed twice. -/
structure AtRest (bench : Workbench) : Prop where
  imports_eq : bench.imports = bench.files.take 1
  files_nodup : bench.files.Nodup

variable {bench after last : Workbench} {name : Text} {body : List Node} {task : Task}
  {result : Except Error Build} {results : List (Except Error Build)}

/-- Lists begun anew are those of a new expansion. -/
theorem buildBody_eq (bench : Workbench) (name : Text) (body : List Node) :
    bench.buildBody name body =
      (bench.compiler.expand name body (.initial name body)).map fun progress =>
        (progress.build,
          { bench with imports := progress.leftImports, files := progress.leftFiles }) := by
  rw [buildBody]
  exact bind_pure_comp _ _

/-- What is left behind makes no difference to what is made of a unit. -/
theorem fst_buildBody (bench : Workbench) (name : Text) (body : List Node) :
    (bench.buildBody name body).map Prod.fst = bench.compiler.buildBody name body := by
  rw [buildBody_eq, Option.map_map, Compiler.buildBody]
  rfl

/-- What is left behind makes no difference to a result. -/
theorem fst_perform (bench : Workbench) (task : Task) :
    (bench.perform task).map Prod.fst = task.result bench.compiler := by
  cases task with
  | tree name body => exact fst_buildBody bench name body
  | source name text =>
    rw [perform, Task.result, Compiler.build]
    cases Source.parse text with
    | error failure => rfl
    | ok body => exact fst_buildBody bench name body

/-- Expanding a unit leaves the compiler as it is, and at rest. -/
theorem atRest_of_buildBody (h : bench.buildBody name body = some (result, after)) :
    after.compiler = bench.compiler ∧ after.AtRest := by
  rw [buildBody_eq] at h
  obtain ⟨progress, hexpand, hafter⟩ := Option.map_eq_some_iff.mp h
  obtain ⟨-, rfl⟩ := Prod.mk.inj hafter
  obtain ⟨setup, -, rfl, -⟩ := Compiler.exists_setup_of_expand hexpand
  obtain ⟨hhead, hnodup⟩ := Expansion.leftFiles_run setup name body
  have himports := Expansion.leftImports_run setup name body
  obtain ⟨later, hfiles⟩ := List.head?_eq_some_iff.mp hhead
  refine ⟨rfl, himports.trans ?_, hnodup⟩
  exact (congrArg (List.take 1) hfiles).symm

/-- A task leaves a compiler as it is, and at rest, whether it succeeds or not. -/
theorem AtRest.perform (h : bench.AtRest) (hperform : bench.perform task = some (result, after)) :
    after.compiler = bench.compiler ∧ after.AtRest := by
  cases task with
  | tree name body => exact atRest_of_buildBody hperform
  | source name text =>
    rw [Workbench.perform] at hperform
    cases hparse : Source.parse text with
    | error failure =>
      rw [hparse] at hperform
      cases hperform
      exact ⟨rfl, h⟩
    | ok body =>
      rw [hparse] at hperform
      exact atRest_of_buildBody hperform

/-- Tasks after another are carried out on what that one leaves. -/
theorem fst_performAll_cons (bench : Workbench) (task : Task) (rest : List Task) :
    (bench.performAll (task :: rest)).map Prod.fst =
      (bench.perform task).bind fun first =>
        ((first.2.performAll rest).map Prod.fst).map (first.1 :: ·) := by
  rw [performAll]
  cases bench.perform task with
  | none => rfl
  | some first =>
    obtain ⟨result, after⟩ := first
    cases hrest : after.performAll rest with
    | none => simp [hrest]
    | some others => simp [hrest]

/-- Each task of a list has the result that the compiler has for it. -/
theorem AtRest.fst_performAll (h : bench.AtRest) (tasks : List Task) :
    (bench.performAll tasks).map Prod.fst = tasks.mapM (Task.result bench.compiler) := by
  induction tasks generalizing bench with
  | nil => rfl
  | cons task rest ih =>
    rw [fst_performAll_cons, List.mapM_cons, ← fst_perform]
    cases hperform : bench.perform task with
    | none => rfl
    | some first =>
      obtain ⟨result, after⟩ := first
      obtain ⟨hcompiler, hafter⟩ := h.perform hperform
      rw [Option.bind_some, ih hafter, hcompiler]
      cases hrest : rest.mapM (Task.result bench.compiler) with
      | none => rfl
      | some results => rfl

/-- Tasks carried out one after another leave a compiler at rest. -/
theorem AtRest.performAll (h : bench.AtRest) {tasks : List Task}
    (hperform : bench.performAll tasks = some (results, last)) : last.AtRest := by
  induction tasks generalizing bench results with
  | nil =>
    cases hperform
    exact h
  | cons task rest ih =>
    obtain ⟨⟨result, after⟩, hfirst, hperform⟩ := Option.bind_eq_some_iff.mp hperform
    obtain ⟨⟨others, left⟩, hrest, hperform⟩ := Option.bind_eq_some_iff.mp hperform
    cases hperform
    exact ih (h.perform hfirst).2 hrest

/-- Under a limit every task comes to a result. -/
theorem isSome_result {compiler : Compiler} {limit : Nat} (h : compiler.limit? = some limit)
    (task : Task) : (task.result compiler).isSome = true := by
  cases task with
  | tree name body =>
    rw [Task.result, Compiler.buildBody_of_limit h, Option.isSome_some]
  | source name text =>
    rw [Task.result, Compiler.build_of_limit h, Option.isSome_some]

/-- Under a limit all tasks come to results. -/
theorem exists_results {compiler : Compiler} {limit : Nat} (h : compiler.limit? = some limit)
    (tasks : List Task) : ∃ results, tasks.mapM (Task.result compiler) = some results := by
  induction tasks with
  | nil => exact ⟨[], rfl⟩
  | cons task rest ih =>
    obtain ⟨results, hresults⟩ := ih
    obtain ⟨result, hresult⟩ := Option.isSome_iff_exists.mp (isSome_result h task)
    exact ⟨result :: results, by rw [List.mapM_cons, hresult, hresults]; rfl⟩

/-- A compiler used again is like a new one. Whatever the units and the limit are, tasks carried out
one after another have the results they have on a new compiler, whether those before them succeed,
cannot be parsed, or stop among units or at the limit; and with a limit they all come to results. The
compiler is left at rest. -/
theorem reused_like_new (library : Library) (maxDepth : Int) (tasks : List Task) :
    let bench : Workbench := { compiler := ⟨library.loader, maxDepth⟩ }
    (bench.performAll tasks).map Prod.fst =
        tasks.mapM (fun task => (bench.perform task).map Prod.fst) ∧
      (∀ results last, bench.performAll tasks = some (results, last) → last.AtRest) ∧
        (0 < maxDepth → (bench.performAll tasks).isSome = true) := by
  intro bench
  have hrest : bench.AtRest := ⟨rfl, List.nodup_nil⟩
  have hresults := hrest.fst_performAll tasks
  refine ⟨?_, fun _ _ => hrest.performAll, fun hdepth => ?_⟩
  · rw [hresults]
    exact congrArg (tasks.mapM ·) (funext fun task => (fst_perform bench task).symm)
  · have hlimit : bench.compiler.limit? = some maxDepth.toNat := if_pos hdepth
    obtain ⟨results, hsome⟩ := exists_results hlimit tasks
    rw [← Option.isSome_map, hresults, hsome, Option.isSome_some]

end Workbench

end Tapestry

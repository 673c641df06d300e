import Tapestry.File.Library
import Tapestry.Proofs.BuildLimits
import Tapestry.Proofs.StepFaults
import Tapestry.Proofs.VisitTree

/-!
# The limit on the depth

Going through the expressions of a program is described by rules that follow the expressions
alone. Without a limit they come to nothing for a template that calls itself. With a limit they
come to exactly one result, since the levels left and the expressions left get fewer. A compiler, with
a limit or without, comes to exactly what the rules come to.

The limit does nothing else: an expansion that does not meet it is the same under a higher one.
-/

namespace Tapestry

/-- The kind of the fault that an error is about. -/
def Error.kind? (error : Error) : Option FaultKind :=
  match error.failure with
  | .fault fault => some fault.kind
  | .trouble _ => none

namespace Expansion

variable {progress : Progress}

/-! ## Expansion without a count of levels -/

/-- Going through expressions, where visits at some depths are too deep. The rules follow the
expressions alone and nothing makes them come to an end. -/
inductive Expands (setup : Setup) (tooFar : Nat → Prop) :
    (trail : List Visit) → (file : Text) → List Node → State → Progress → Prop where
  | nil {trail file state} : Expands setup tooFar trail file [] state (.ready state)
  /-- The next visit would be too deep. -/
  | beyond {trail file node rest state} (far : tooFar (trail.length + 1)) :
    Expands setup tooFar trail file (node :: rest) state
      (.stopped (state.record (.start trail node file state.env))
        ⟨.fault (tooDeep setup.limit node), some (.start trail node file state.env :: trail)⟩)
  | fail {trail file node rest state record fault} (near : ¬ tooFar (trail.length + 1))
      (failed : stepAt setup trail file node state = .fail record fault) :
    Expands setup tooFar trail file (node :: rest) state
      (.stopped (state.record record) ⟨.fault fault, some (record :: trail)⟩)
  | done {trail file node rest state record env progress} (near : ¬ tooFar (trail.length + 1))
      (finished : stepAt setup trail file node state = .done record env)
      (behind : Expands setup tooFar trail file rest { state.record record with env } progress) :
    Expands setup tooFar trail file (node :: rest) state progress
  /-- A body is gone through, then what stands behind the expression. -/
  | body {trail file node rest state record origin body entered back last progress}
      (near : ¬ tooFar (trail.length + 1))
      (descends : Descends setup trail file node state record origin body entered back)
      (inside : Expands setup tooFar (record :: trail) origin body entered (.ready last))
      (behind : Expands setup tooFar trail file rest (back last) progress) :
    Expands setup tooFar trail file (node :: rest) state progress
  /-- A body is not gone through to its end. -/
  | broken {trail file node rest state record origin body entered back last error}
      (near : ¬ tooFar (trail.length + 1))
      (descends : Descends setup trail file node state record origin body entered back)
      (inside : Expands setup tooFar (record :: trail) origin body entered (.stopped last error)) :
    Expands setup tooFar trail file (node :: rest) state (.stopped last error)

section Limited

variable {setup : Setup} {levels : Nat} {trail : List Visit} {file : Text} {nodes : List Node}
  {state : State} {progress : Progress}

/-- With a limit, going through expressions comes to what visiting them gives. The levels left and
the expressions left get fewer. -/
theorem expands_visitAll (hlevels : levels + trail.length = setup.limit) :
    Expands setup (setup.limit < ·) trail file nodes state
      (visitAll (visit setup levels trail file) nodes state) := by
  induction levels generalizing trail file nodes state with
  | zero =>
    cases nodes with
    | nil => exact .nil
    | cons node rest => exact .beyond (by omega)
  | succ less ihless =>
    have hnear : ¬ setup.limit < trail.length + 1 := by omega
    induction nodes generalizing state with
    | nil => exact .nil
    | cons node rest ih =>
      -- Whatever the body of the expression comes to, it is gone through one level deeper.
      have hbody {record : Visit} {origin : Text} {body : List Node} {entered : State}
          {back : State → State}
          (hdescends : Descends setup trail file node state record origin body entered back) :
          Expands setup (setup.limit < ·) trail file (node :: rest) state
            (visitAll (visit setup (less + 1) trail file) (node :: rest) state) := by
        have hinside : Expands setup (setup.limit < ·) (record :: trail) origin body entered
            (visitAll (visit setup less (record :: trail) origin) body entered) :=
          ihless (by rw [List.length_cons]; omega)
        rw [visitAll, hdescends.visit_eq]
        cases hprogress : visitAll (visit setup less (record :: trail) origin) body entered with
        | ready last => exact .body hnear hdescends (hprogress ▸ hinside) ih
        | stopped last error => exact .broken hnear hdescends (hprogress ▸ hinside)
      cases hstep : stepAt setup trail file node state with
      | fail record fault =>
        rw [visitAll, visit_succ, hstep]
        exact .fail hnear hstep
      | done record env =>
        rw [visitAll, visit_succ, hstep]
        exact .done hnear hstep ih
      | enter record scope body origin => exact hbody (.enter hstep)
      | unit record name body => exact hbody (.unit hstep)

/-- With a limit, going through expressions comes to nothing else. -/
theorem visitAll_eq_of_expands
    (h : Expands setup (setup.limit < ·) trail file nodes state progress)
    (hlevels : levels + trail.length = setup.limit) :
    visitAll (visit setup levels trail file) nodes state = progress := by
  induction h generalizing levels with
  | nil => rfl
  | beyond far =>
    obtain rfl : levels = 0 := by omega
    rfl
  | fail near failed =>
    obtain ⟨less, rfl⟩ := Nat.exists_eq_add_of_lt (show 0 < levels by omega)
    rw [visitAll, Nat.zero_add, visit_succ, failed, Progress.andThen]
  | done near finished _ ih =>
    obtain ⟨less, rfl⟩ := Nat.exists_eq_add_of_lt (show 0 < levels by omega)
    rw [visitAll, Nat.zero_add, visit_succ, finished, Progress.andThen]
    exact ih (by omega)
  | body near descends _ _ ihinside ihbehind =>
    obtain ⟨less, rfl⟩ := Nat.exists_eq_add_of_lt (show 0 < levels by omega)
    rw [visitAll, Nat.zero_add, descends.visit_eq, ihinside (by rw [List.length_cons]; omega)]
    exact ihbehind (by omega)
  | broken near descends _ ihinside =>
    obtain ⟨less, rfl⟩ := Nat.exists_eq_add_of_lt (show 0 < levels by omega)
    rw [visitAll, Nat.zero_add, descends.visit_eq, ihinside (by rw [List.length_cons]; omega)]
    rfl

end Limited

/-! ## More levels -/

section Monotone

variable {loader : Loader} {limit other levels : Nat} {trail : List Visit} {file name : Text}
  {node : Node} {nodes : List Node} {state : State}

/-- An expansion has not met the limit. -/
def Progress.WithinLimit (progress : Progress) : Prop :=
  progress.faultKind? ≠ some .recursionLimit

/-- An expansion that is ready has not met the limit. -/
@[simp]
theorem withinLimit_ready (state : State) : (Progress.ready state).WithinLimit := by
  simp [Progress.WithinLimit, Progress.faultKind?]

/-- Leaving a body meets no limit. -/
theorem withinLimit_mapReady {f : State → State} :
    (progress.mapReady f).WithinLimit ↔ progress.WithinLimit := by
  cases progress <;> rfl

/-- A list that does not meet the limit does not meet it in its first expression. -/
theorem withinLimit_of_cons {run : Node → State → Progress} {rest : List Node}
    (h : (visitAll run (node :: rest) state).WithinLimit) : (run node state).WithinLimit := by
  cases hfirst : run node state with
  | ready middle => exact withinLimit_ready middle
  | stopped last error => rwa [visitAll, hfirst] at h

/-- What comes about without meeting the limit comes about also under another limit with more
levels left. -/
theorem visit_of_more_levels (more : Nat)
    (h : (visit ⟨loader, limit⟩ levels trail file node state).WithinLimit) :
    visit ⟨loader, other⟩ (levels + more) trail file node state =
      visit ⟨loader, limit⟩ levels trail file node state := by
  induction levels generalizing trail file node state with
  | zero => exact absurd rfl h
  | succ less ih =>
    rw [Nat.add_right_comm]
    -- The step of the expression does not depend on the limit.
    refine visit_succ_congr rfl fun hdescends => ?_
    rw [hdescends.visit_eq, withinLimit_mapReady] at h
    exact visitAll_congr _ (fun _ _ _ => withinLimit_of_cons) (fun _ _ => ih) h

/-- Expressions that do not meet the limit come to the same under a higher one. -/
theorem visitAll_of_higher_limit (hlimit : limit ≤ other)
    (h : (visitAll (visit ⟨loader, limit⟩ limit [] name) nodes state).WithinLimit) :
    visitAll (visit ⟨loader, other⟩ other [] name) nodes state =
      visitAll (visit ⟨loader, limit⟩ limit [] name) nodes state := by
  obtain ⟨more, rfl⟩ := Nat.exists_eq_add_of_le hlimit
  exact visitAll_congr _ (fun _ _ _ => withinLimit_of_cons) (fun _ _ => visit_of_more_levels more) h

/-- An expansion that does not meet the limit is the same under a higher one. -/
theorem run_of_higher_limit {body : List Node} (hlimit : limit ≤ other)
    (h : (run ⟨loader, limit⟩ name body).WithinLimit) :
    run ⟨loader, other⟩ name body = run ⟨loader, limit⟩ name body :=
  visitAll_of_higher_limit hlimit h

/-- An expansion is cut off just if it meets the limit. -/
theorem isCutOff_eq_false_iff : progress.isCutOff = false ↔ progress.WithinLimit := by
  cases progress with
  | ready last => simp [Progress.isCutOff, Progress.WithinLimit, Progress.faultKind?]
  | stopped last error =>
    obtain ⟨failure, context⟩ := error
    cases failure <;> simp [Progress.isCutOff, Progress.WithinLimit, Progress.faultKind?]

/-- What comes about under a limit without meeting it comes about without a limit. -/
theorem visitUnlimited_of_withinLimit (first : Nat)
    (h : (visitAll (visit ⟨loader, limit⟩ limit [] name) nodes state).WithinLimit) :
    State.visitUnlimited loader first name nodes state =
      some (visitAll (visit ⟨loader, limit⟩ limit [] name) nodes state) := by
  -- The limits tried grow, so one of them is at least the given one if none before will do.
  induction hrest : limit - first using Nat.strongRecOn generalizing first with
  | ind rest ih =>
    subst hrest
    rw [State.visitUnlimited]
    split
    case isTrue hcut =>
      by_cases hreached : limit ≤ first
      · rw [visitAll_of_higher_limit hreached h, isCutOff_eq_false_iff.mpr h] at hcut
        cases hcut
      · exact ih _ (by omega) _ rfl
    case isFalse huncut =>
      have hwithin := isCutOff_eq_false_iff.mp (Bool.eq_false_iff.mpr huncut)
      rcases Nat.le_total limit first with hle | hle
      · rw [visitAll_of_higher_limit hle h]
      · rw [visitAll_of_higher_limit hle hwithin]

end Monotone

/-! ## How deep visits are -/

section Depth

variable {setup : Setup} {levels : Nat} {trail : List Visit} {file name : Text} {node : Node}
  {body nodes : List Node} {state last : State} {error : Error}

/-- An expansion that comes to its end keeps to the limit. -/
theorem depth_le_of_ready (h : run setup name body = .ready last) {record : Visit}
    (hrecord : record ∈ last.visits) : record.depth ≤ setup.limit := by
  have hmem : record ∈ (run setup name body).visits := by
    rw [h]
    exact List.mem_reverse.mpr hrecord
  obtain ⟨earlier, later, hvisits⟩ := List.append_of_mem hmem
  cases earlier with
  | nil =>
    obtain ⟨added, hadded⟩ := exists_visits_eq setup name body
    obtain rfl := (List.cons.inj (hadded.symm.trans hvisits)).1
    exact Nat.zero_le _
  | cons =>
    obtain ⟨⟨levels, trail, file, nodes, state⟩, hreached, hmakes⟩ :=
      exists_reached_of_visits hvisits (by simp)
    cases nodes with
    | nil => cases hmakes.records
    | cons node rest =>
      cases levels with
      | zero =>
        obtain ⟨_, _, _, hstopped⟩ := hmakes.below_of_tooDeep
        cases h.symm.trans hstopped
      | succ less =>
        have hlevels := levels_add_length hreached
        dsimp only at hlevels
        rw [hmakes.records.place.2.1]
        omega

/-- A list stops where one of its expressions does. -/
theorem exists_stopped_of_visitAll {run : Node → State → Progress}
    (h : visitAll run nodes state = .stopped last error) :
    ∃ node before, run node before = .stopped last error := by
  induction nodes generalizing state with
  | nil => cases h
  | cons node rest ih =>
    cases hfirst : run node state with
    | stopped other reason =>
      rw [visitAll, hfirst] at h
      exact ⟨node, state, hfirst.trans h⟩
    | ready middle =>
      rw [visitAll, hfirst] at h
      exact ih h

/-- Where the limit is met, no level is left between the visit that is too deep and those around the
expression. -/
theorem depth_of_recursionLimit
    (h : visit setup levels trail file node state = .stopped last error)
    (hkind : error.kind? = some .recursionLimit) :
    ∃ record outer, error.trail = record :: outer ∧ record.depth = levels + trail.length + 1 := by
  induction levels generalizing trail file node state with
  | zero =>
    obtain ⟨_, rfl⟩ := Progress.stopped.inj h
    exact ⟨_, trail, rfl, by rw [Nat.zero_add]; rfl⟩
  | succ less ih =>
    -- Below the body the count of levels and that of visits around change places.
    have hbody {record : Visit} {origin : Text} {body : List Node} {entered : State}
        {back : State → State}
        (hdescends : Descends setup trail file node state record origin body entered back) :
        ∃ record outer, error.trail = record :: outer ∧
          record.depth = less + 1 + trail.length + 1 := by
      rw [hdescends.visit_eq] at h
      obtain ⟨child, before, hchild⟩ := exists_stopped_of_visitAll (eq_stopped_of_mapReady h)
      obtain ⟨found, outer, htrail, hdepth⟩ := ih hchild
      refine ⟨found, outer, htrail, ?_⟩
      rw [hdepth, List.length_cons]
      omega
    cases hstep : stepAt setup trail file node state with
    | fail record fault =>
      rw [visit_succ, hstep] at h
      obtain ⟨_, rfl⟩ := Progress.stopped.inj h
      have hwithin := within_step setup.loader state (.start trail node file state.env)
      rw [← stepAt, hstep] at hwithin
      exact absurd (Option.some.inj hkind) hwithin.1
    | done record env =>
      rw [visit_succ, hstep] at h
      cases h
    | enter record scope body origin => exact hbody (.enter hstep)
    | unit record name body => exact hbody (.unit hstep)

end Depth

/-! ## Without a limit -/

section Unlimited

variable {setup : Setup} {head : Statement} {function : Function} {body nodes : List Node}
  {state : State} {file : Text} {progress : Progress} {trail : List Visit} {limit other : Nat}
  {loader : Loader}

/-- A call of a template without parameters enters its body. -/
theorem exists_stepAt_eq_enter (hargs : head.args = []) (hparams : function.params = [])
    (hstyle : function.style = .positional) (haction : function.action = .template body)
    (trail : List Visit) (file : Text) (hfound : state.env.func? head.head.text = some function) :
    ∃ record, stepAt setup trail file (.call head) state = .enter record .empty body function.file := by
  have hcall : Calls state.env (.call head) function [] :=
    { unspliced := fun _ _ => Node.noConfusion
      resolved := by simp [Env.resolveFunction, Node.callee, Node.head, hfound]
      shaped := by simp [checkShape, Function.wantsBlock, haction]
      bound := by
        simp [Function.bind, hstyle, Function.bindPositional, Node.arguments, Node.head, hargs,
          hparams, Param.bindAll] }
  have hstep : stepAt setup trail file (.call head) state = stepCall setup.loader state
      (called state.env (.start trail (.call head) file state.env) function []) function :=
    step_of_calls setup.loader hcall
  rw [stepCall, haction] at hstep
  exact ⟨_, hstep⟩

/-- Without a limit, a call of a template whose body is that same call comes to nothing. -/
theorem not_expands_of_self_call {rest : List Node} (hargs : head.args = [])
    (hparams : function.params = []) (hstyle : function.style = .positional)
    (haction : function.action = .template [.call head])
    (hfound : state.env.func? head.head.text = some function) :
    ¬ Expands setup (fun _ => False) trail file (.call head :: rest) state progress := by
  have henter (trail : List Visit) (file : Text) {state : State}
      (hfound : state.env.func? head.head.text = some function) :
      ∃ record, stepAt setup trail file (.call head) state =
        .enter record .empty [.call head] function.file :=
    exists_stepAt_eq_enter hargs hparams hstyle haction trail file hfound
  intro h
  obtain ⟨nodes, hnodes⟩ : ∃ nodes, nodes = Node.call head :: rest := ⟨_, rfl⟩
  rw [← hnodes] at h
  induction h generalizing rest with
  | nil => cases hnodes
  | beyond far => exact far
  | fail _ failed =>
    cases hnodes
    obtain ⟨record, hstep⟩ := henter _ _ hfound
    cases hstep.symm.trans failed
  | done _ finished =>
    cases hnodes
    obtain ⟨record, hstep⟩ := henter _ _ hfound
    cases hstep.symm.trans finished
  | body _ descends _ _ ih _ | broken _ descends _ ih =>
    cases hnodes
    obtain ⟨record, hstep⟩ := henter _ _ hfound
    cases descends with
    | enter entered =>
      -- The same call is below, in an environment with one more empty scope.
      obtain ⟨rfl, rfl, rfl, rfl⟩ := Step.enter.inj (hstep.symm.trans entered)
      exact ih hfound rfl
    | unit begun => cases hstep.symm.trans begun

/-- The limit has no part in how a step leads into a body. -/
theorem Descends.of_limit {node : Node} {record : Visit} {origin : Text} {entered : State}
    {back : State → State}
    (h : Descends ⟨loader, limit⟩ trail file node state record origin body entered back) :
    Descends ⟨loader, other⟩ trail file node state record origin body entered back := by
  cases h with
  | enter entered => exact .enter entered
  | unit begun => exact .unit begun

/-- A result that is not about the limit is come to without a limit. -/
theorem Expands.unlimited {tooFar : Nat → Prop}
    (h : Expands ⟨loader, limit⟩ tooFar trail file nodes state progress)
    (hwithin : progress.WithinLimit) :
    Expands ⟨loader, other⟩ (fun _ => False) trail file nodes state progress := by
  induction h with
  | nil => exact .nil
  | beyond => exact absurd rfl hwithin
  | fail _ failed => exact .fail id failed
  | done _ finished _ ih => exact .done id finished (ih hwithin)
  | body _ descends _ _ ihinside ihbehind =>
    exact .body id descends.of_limit (ihinside (withinLimit_ready _)) (ihbehind hwithin)
  | broken _ descends _ ihinside => exact .broken id descends.of_limit (ihinside hwithin)

/-- What is come to without a limit is come to with levels enough, whatever limit they are counted
from. -/
theorem exists_levels_of_expands
    (h : Expands ⟨loader, limit⟩ (fun _ => False) trail file nodes state progress) :
    ∃ enough, ∀ levels other, enough ≤ levels →
      visitAll (visit ⟨loader, other⟩ levels trail file) nodes state = progress := by
  -- A list needs a level for its first expression, and one more than its body does.
  induction h with
  | nil => exact ⟨0, fun _ _ _ => rfl⟩
  | beyond far => exact far.elim
  | @fail trail file node _ state _ _ _ failed =>
    refine ⟨1, fun levels other hlevels => ?_⟩
    obtain ⟨less, rfl⟩ := Nat.exists_eq_add_of_le' hlevels
    have hstep : stepAt ⟨loader, other⟩ trail file node state = _ := failed
    rw [visitAll, visit_succ, hstep, Progress.andThen]
  | @done trail file node _ state _ _ _ _ finished _ ih =>
    obtain ⟨enough, hrest⟩ := ih
    refine ⟨enough + 1, fun levels other hlevels => ?_⟩
    obtain ⟨less, rfl⟩ := Nat.exists_eq_add_of_le' (Nat.le_of_add_left_le hlevels)
    have hstep : stepAt ⟨loader, other⟩ trail file node state = _ := finished
    rw [visitAll, visit_succ, hstep, Progress.andThen]
    exact hrest _ _ (by omega)
  | body _ descends _ _ ihinside ihbehind =>
    obtain ⟨inside, hinside⟩ := ihinside
    obtain ⟨behind, hbehind⟩ := ihbehind
    refine ⟨max inside behind + 1, fun levels other hlevels => ?_⟩
    obtain ⟨less, rfl⟩ := Nat.exists_eq_add_of_le' (Nat.le_of_add_left_le hlevels)
    rw [visitAll, descends.of_limit.visit_eq, hinside _ _ (by omega)]
    exact hbehind _ _ (by omega)
  | broken _ descends _ ihinside =>
    obtain ⟨inside, hinside⟩ := ihinside
    refine ⟨inside + 1, fun levels other hlevels => ?_⟩
    obtain ⟨less, rfl⟩ := Nat.exists_eq_add_of_le' (Nat.le_of_add_left_le hlevels)
    rw [visitAll, descends.of_limit.visit_eq, hinside _ _ (by omega)]
    rfl

/-- Without a limit, nothing that is come to is about the limit. -/
theorem Expands.withinLimit (h : Expands setup (fun _ => False) trail file nodes state progress) :
    progress.WithinLimit := by
  induction h with
  | nil => exact withinLimit_ready _
  | beyond far => exact far.elim
  | @fail trail file node _ state record fault _ failed =>
    have hwithin := within_step setup.loader state (.start trail node file state.env)
    rw [← stepAt, failed] at hwithin
    exact fun hkind => hwithin.1 (Option.some.inj hkind)
  | done _ _ _ ih => exact ih
  | body _ _ _ _ _ ihbehind => exact ihbehind
  | broken _ _ _ ihinside => exact ihinside

/-- Visiting without a limit comes to exactly what the rules come to where no depth is too deep. -/
theorem visitUnlimited_eq_some_iff {first : Nat} {name : Text} :
    State.visitUnlimited loader first name body state = some progress ↔
      Expands ⟨loader, limit⟩ (fun _ => False) [] name body state progress := by
  constructor
  · intro h
    obtain ⟨n, rfl, huncut⟩ := exists_limit_of_visitUnlimited h
    exact (expands_visitAll (Nat.add_zero n)).unlimited (isCutOff_eq_false_iff.mp huncut)
  · intro h
    obtain ⟨enough, henough⟩ := exists_levels_of_expands h
    have hprogress := henough enough enough (Nat.le_refl _)
    rw [visitUnlimited_of_withinLimit first (hprogress ▸ h.withinLimit), hprogress]

end Unlimited

/-! ## Builds under a limit -/

/-- What is built comes from an expansion that came to its end. -/
theorem Progress.eq_ready_of_build {build : Build} (h : progress.build = .ok build) :
    ∃ last, progress = .ready last ∧ build.visits = last.visits.reverse := by
  cases progress with
  | ready last =>
    cases h
    exact ⟨last, rfl, rfl⟩
  | stopped last error => cases h

/-- What fails to build comes from an expansion that stopped with that error. -/
theorem Progress.eq_stopped_of_build {error : Error} (h : progress.build = .error error) :
    (∃ last, progress = .stopped last error) ∧ progress.faultKind? = error.kind? := by
  cases progress with
  | ready last => cases h
  | stopped last other =>
    obtain rfl := Except.error.inj h
    obtain ⟨failure, trail⟩ := other
    cases failure <;> exact ⟨⟨last, rfl⟩, rfl⟩

/-- An expansion stopped by a fault has no build, but an error of that kind. -/
theorem Progress.exists_error_of_faultKind? {kind : FaultKind}
    (h : progress.faultKind? = some kind) :
    ∃ error, progress.build = .error error ∧ error.kind? = some kind := by
  cases hbuild : progress.build with
  | ok build =>
    obtain ⟨last, rfl, _⟩ := Progress.eq_ready_of_build hbuild
    cases h
  | error error => exact ⟨error, rfl, (Progress.eq_stopped_of_build hbuild).2 ▸ h⟩

end Expansion

namespace Compiler

open Expansion

variable {body : List Node} {compiler : Compiler} {name : Text} {state : State} {setup : Setup}
  {depth : Int}

/-- Depths beyond the limit, if there is one. -/
def TooFar (compiler : Compiler) (depth : Nat) : Prop :=
  ∃ limit, compiler.limit? = some limit ∧ limit < depth

/-- A compiler comes to exactly what the rules come to, where only depths beyond its limit are too
deep, and none are if it has no limit. -/
theorem expand_eq_some_iff {progress : Progress} :
    compiler.expand name body state = some progress ↔
      Expands ⟨compiler.loader, compiler.limit?.getD 0⟩ compiler.TooFar [] name body state progress := by
  cases hlimit : compiler.limit? with
  | none =>
    have hnone : compiler.TooFar = fun _ => False := by
      funext depth
      refine propext ⟨fun hfar => ?_, False.elim⟩
      obtain ⟨limit, hsome, _⟩ := hfar
      cases hlimit.symm.trans hsome
    rw [expand, hlimit, hnone]
    exact visitUnlimited_eq_some_iff
  | some limit =>
    have hfar : compiler.TooFar = (limit < ·) := by
      funext depth
      refine propext ⟨fun hfar => ?_, fun hlt => ⟨limit, hlimit, hlt⟩⟩
      obtain ⟨other, hother, hlt⟩ := hfar
      rwa [Option.some.inj (hlimit.symm.trans hother)]
    rw [expand, hlimit, hfar, Option.getD_some]
    constructor
    · intro h
      cases h
      exact expands_visitAll (Nat.add_zero limit)
    · intro h
      exact congrArg some (visitAll_eq_of_expands h (Nat.add_zero limit))

/-- What comes about under a limit that a compiler may work with is what it comes to, unless it has no
limit and this one cuts the expansion off. -/
theorem expand_of_worksWith (hworks : compiler.WorksWith setup)
    (hwithin : compiler.limit? = none →
      (visitAll (visit setup setup.limit [] name) body state).WithinLimit) :
    compiler.expand name body state = some (visitAll (visit setup setup.limit [] name) body state) := by
  obtain ⟨loader, limit⟩ := setup
  obtain rfl : loader = compiler.loader := hworks.loader
  cases hlimit : compiler.limit? with
  | none =>
    rw [expand, hlimit]
    exact visitUnlimited_of_withinLimit _ (hwithin hlimit)
  | some own =>
    obtain rfl : limit = own := hworks.limit own hlimit
    rw [expand, hlimit]

/-- A compiler makes of a unit what is made of it under a limit that the compiler may work with, unless
it has no limit and this one cuts the expansion off. -/
theorem buildBody_of_worksWith (hworks : compiler.WorksWith setup)
    (hwithin : compiler.limit? = none → (run setup name body).WithinLimit) :
    compiler.buildBody name body = some (setup.buildBody name body) :=
  congrArg (Option.map Progress.build) (expand_of_worksWith hworks hwithin)

/-- A compiler without a limit comes to nothing for a template whose body is a call of itself. -/
theorem expand_of_self_call {head : Statement} {rest : List Node} {function : Function}
    (hlimit : compiler.limit? = none) (hargs : head.args = []) (hparams : function.params = [])
    (hstyle : function.style = .positional) (haction : function.action = .template [.call head])
    (hfound : state.env.func? head.head.text = some function) :
    compiler.expand name (.call head :: rest) state = none := by
  refine Option.eq_none_iff_forall_ne_some.mpr fun progress hprogress => ?_
  rw [expand, hlimit] at hprogress
  have hexpands : Expands ⟨compiler.loader, 0⟩ (fun _ => False) [] name _ state progress :=
    visitUnlimited_eq_some_iff.mp hprogress
  exact not_expands_of_self_call hargs hparams hstyle haction hfound hexpands

/-- What going through the expressions of a unit gives, where only visits deeper than the limit are
too deep. -/
def Gives (compiler : Compiler) (name : Text) (body : List Node) (result : Except Error Build) :
    Prop :=
  ∃ progress, Expands ⟨compiler.loader, compiler.limit?.getD 0⟩ compiler.TooFar [] name body
    (.initial name body) progress ∧ progress.build = result

/-- A compiler makes of a unit what going through its expressions gives. -/
theorem gives_iff (compiler : Compiler) (name : Text) (body : List Node)
    (result : Except Error Build) :
    compiler.Gives name body result ↔ compiler.buildBody name body = some result := by
  rw [Gives, buildBody, Option.map_eq_some_iff]
  exact exists_congr fun progress => and_congr_left fun _ => expand_eq_some_iff.symm

/-- A positive number is the limit of a compiler. -/
theorem limit?_of_pos (loader : Loader) (hdepth : 0 < depth) :
    limit? ⟨loader, depth⟩ = some depth.toNat := if_pos hdepth

/-- The expansion that a build with a positive limit rests on. -/
theorem buildBody_of_pos (loader : Loader) (hdepth : 0 < depth) (name : Text) (body : List Node) :
    buildBody ⟨loader, depth⟩ name body = some (run ⟨loader, depth.toNat⟩ name body).build :=
  buildBody_of_limit (limit?_of_pos loader hdepth) name body

/-- Whatever a unit holds and asks for, under a positive limit on the depth its expansion comes to
one result. A build keeps to the limit, and an error about the limit is one level beyond it. A
higher limit changes no build, and no error about anything else. -/
theorem limit_only_cuts_off (loader : Loader) (depth : Int) (hdepth : 0 < depth) (name : Text)
    (body : List Node) :
    (∃ result, buildBody ⟨loader, depth⟩ name body = some result) ∧
    (∀ result, Gives ⟨loader, depth⟩ name body result ↔
      buildBody ⟨loader, depth⟩ name body = some result) ∧
    (∀ build, buildBody ⟨loader, depth⟩ name body = some (.ok build) →
      ∀ visit ∈ build.visits, (visit.depth : Int) ≤ depth) ∧
    (∀ error, buildBody ⟨loader, depth⟩ name body = some (.error error) →
      error.kind? = some .recursionLimit →
        ∃ visit outer, error.trail = visit :: outer ∧ (visit.depth : Int) = depth + 1) ∧
    ∀ deeper, depth < deeper →
      (∀ build, buildBody ⟨loader, depth⟩ name body = some (.ok build) →
        buildBody ⟨loader, deeper⟩ name body = some (.ok build)) ∧
      ∀ error, buildBody ⟨loader, depth⟩ name body = some (.error error) →
        error.kind? ≠ some .recursionLimit →
          buildBody ⟨loader, deeper⟩ name body = some (.error error) := by
  have hlimit : (depth.toNat : Int) = depth := Int.toNat_of_nonneg (by omega)
  have hresult := buildBody_of_pos loader hdepth name body
  refine ⟨⟨_, hresult⟩, gives_iff ⟨loader, depth⟩ name body, ?_, ?_, ?_⟩
  · intro build hbuild visit hvisit
    rw [hresult] at hbuild
    obtain ⟨last, hready, hvisits⟩ := Progress.eq_ready_of_build (Option.some.inj hbuild)
    rw [hvisits, List.mem_reverse] at hvisit
    have hle : visit.depth ≤ depth.toNat := depth_le_of_ready hready hvisit
    omega
  · intro error herror hkind
    rw [hresult] at herror
    obtain ⟨⟨last, hstopped⟩, _⟩ := Progress.eq_stopped_of_build (Option.some.inj herror)
    obtain ⟨node, before, hnode⟩ := exists_stopped_of_visitAll hstopped
    obtain ⟨visit, outer, htrail, hvisit⟩ := depth_of_recursionLimit hnode hkind
    refine ⟨visit, outer, htrail, ?_⟩
    rw [hvisit, List.length_nil]
    dsimp only
    omega
  · intro deeper hdeeper
    -- Where the limit is not met, the expansion is the same under the higher one.
    have hsame (h : (run ⟨loader, depth.toNat⟩ name body).WithinLimit) :
        buildBody ⟨loader, deeper⟩ name body = buildBody ⟨loader, depth⟩ name body := by
      rw [hresult, buildBody_of_pos loader (by omega), run_of_higher_limit (by omega) h]
    constructor
    · intro build hbuild
      rw [hsame, hbuild]
      rw [hresult] at hbuild
      obtain ⟨last, hready, _⟩ := Progress.eq_ready_of_build (Option.some.inj hbuild)
      simp [hready]
    · intro error herror hkind
      rw [hsame, herror]
      rw [hresult] at herror
      rwa [Progress.WithinLimit, (Progress.eq_stopped_of_build (Option.some.inj herror)).2]

/-- A source whose template calls itself. -/
def sinking : Text := "macro global sink\n    sink\nsink\n"

/-- A source with a primitive three levels deep. -/
def nesting : Text :=
  "macro global inner\n    __plus 1\nmacro global outer\n    inner\nouter\n"

/-- A source that calls an unknown function two levels deep. -/
def straying : Text := "macro global outer\n    stray\nouter\n"

/-- Under a limit of three levels, one source sinks to the fourth level, one comes just as deep as
it may, and one strays before; under nine levels the last two do the same. -/
theorem limit_only_cuts_off_three :
    (0 : Int) < 3 ∧ ∃ sinks nests strays, Source.parse sinking = .ok sinks ∧
      Source.parse nesting = .ok nests ∧ Source.parse straying = .ok strays ∧
        (∃ error visit outer,
          buildBody ⟨Library.loader ⟨[]⟩, 3⟩ "main" sinks = some (.error error) ∧
            error.kind? = some .recursionLimit ∧ error.trail = visit :: outer ∧
              (visit.depth : Int) = 3 + 1) ∧
          (∃ build, Gives ⟨Library.loader ⟨[]⟩, 3⟩ "main" nests (.ok build) ∧
            build.visits.map Visit.depth = [0, 1, 1, 1, 2, 3] ∧
              buildBody ⟨Library.loader ⟨[]⟩, 9⟩ "main" nests = some (.ok build)) ∧
            ∃ error, buildBody ⟨Library.loader ⟨[]⟩, 3⟩ "main" strays = some (.error error) ∧
              error.kind? = some .functionNotFound ∧
                buildBody ⟨Library.loader ⟨[]⟩, 9⟩ "main" strays = some (.error error) := by
  have hsinks : (Source.parse sinking).toOption.map (fun body =>
      (run ⟨Library.loader ⟨[]⟩, 3⟩ "main" body).faultKind?) = some (some .recursionLimit) := by
    decide +kernel
  have hnests : (Source.parse nesting).toOption.bind (fun body =>
      (Setup.buildBody ⟨Library.loader ⟨[]⟩, 3⟩ "main" body).toOption.map fun build =>
        build.visits.map Visit.depth) = some [0, 1, 1, 1, 2, 3] := by
    decide +kernel
  have hstrays : (Source.parse straying).toOption.map (fun body =>
      (run ⟨Library.loader ⟨[]⟩, 3⟩ "main" body).faultKind?) = some (some .functionNotFound) := by
    decide +kernel
  obtain ⟨sinks, hsinking, hsinks⟩ := Option.map_eq_some_iff.mp hsinks
  obtain ⟨nests, hnesting, hnests⟩ := Option.bind_eq_some_iff.mp hnests
  obtain ⟨build, hbuild, hdepths⟩ := Option.map_eq_some_iff.mp hnests
  obtain ⟨strays, hstraying, hstrays⟩ := Option.map_eq_some_iff.mp hstrays
  obtain ⟨sunk, hsunk, hlimit⟩ := Progress.exists_error_of_faultKind? hsinks
  obtain ⟨stray, hstray, hmissing⟩ := Progress.exists_error_of_faultKind? hstrays
  have hthree (body : List Node) := buildBody_of_pos (Library.loader ⟨[]⟩) (show 0 < 3 by decide) "main" body
  obtain ⟨_, _, _, hsinking', _⟩ :=
    limit_only_cuts_off (Library.loader ⟨[]⟩) 3 (by decide) "main" sinks
  obtain ⟨_, hgives, _, _, hnesting'⟩ :=
    limit_only_cuts_off (Library.loader ⟨[]⟩) 3 (by decide) "main" nests
  obtain ⟨_, _, _, _, hstraying'⟩ :=
    limit_only_cuts_off (Library.loader ⟨[]⟩) 3 (by decide) "main" strays
  have hsunk := (hthree sinks).trans (congrArg some hsunk)
  have hbuilt := (hthree nests).trans (congrArg some (eq_ok_of_toOption hbuild))
  have hstray := (hthree strays).trans (congrArg some hstray)
  obtain ⟨visit, outer, htrail, hvisit⟩ := hsinking' sunk hsunk hlimit
  refine ⟨by decide, sinks, nests, strays, eq_ok_of_toOption hsinking, eq_ok_of_toOption hnesting,
    eq_ok_of_toOption hstraying, ⟨sunk, visit, outer, hsunk, hlimit, htrail, hvisit⟩,
    ⟨build, (hgives _).mpr hbuilt, hdepths, (hnesting' 9 (by decide)).1 build hbuilt⟩,
    ⟨stray, hstray, hmissing, ?_⟩⟩
  exact (hstraying' 9 (by decide)).2 stray hstray (by rw [hmissing]; decide)

end Compiler

end Tapestry

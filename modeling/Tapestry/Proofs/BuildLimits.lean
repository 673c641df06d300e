import Tapestry.Expansion.Build

/-!
# Builds under a limit and without one

A compiler has a limit on the depth of visits, or none. What it gives is in any case what an expansion
under some limit gives: under its own if it has one, and else under one that does not cut the
expansion off. So what holds of expansions under every limit holds of what compilers give.
-/

namespace Tapestry

namespace Expansion

/-- What comes about without a limit comes about under a limit that does not cut it off. -/
theorem exists_limit_of_visitUnlimited {loader : Loader} {limit : Nat} {name : Text} {body : List Node}
    {state : State} {progress : Progress}
    (h : State.visitUnlimited loader limit name body state = some progress) :
    ∃ n, visitAll (visit ⟨loader, n⟩ n [] name) body state = progress ∧ progress.isCutOff = false := by
  refine State.visitUnlimited.partial_correctness loader name body state
    (fun _ progress => ∃ n, visitAll (visit ⟨loader, n⟩ n [] name) body state = progress ∧
      progress.isCutOff = false) ?_ limit progress h
  intro later hlater limit progress hprogress
  dsimp only at hprogress
  split at hprogress
  case isTrue => exact hlater _ _ hprogress
  case isFalse huncut =>
    cases hprogress
    exact ⟨limit, rfl, Bool.eq_false_iff.mpr huncut⟩

namespace Setup

variable {setup : Setup} {name source : Text} {build : Build}

/-- A build is made of the end of the expansion of its parsed source. -/
theorem exists_ready_of_build (h : setup.build name source = .ok build) :
    ∃ body state, Source.parse source = .ok body ∧ run setup name body = .ready state ∧
      build = ⟨state.visits.reverse, state.files, state.env.rootScope⟩ := by
  unfold Setup.build at h
  split at h
  case h_1 => cases h
  case h_2 body hparse =>
    unfold buildBody at h
    cases hrun : run setup name body with
    | stopped state error =>
      rw [hrun] at h
      cases h
    | ready state =>
      rw [hrun] at h
      exact ⟨body, state, hparse, hrun, (Except.ok.inj h).symm⟩

end Setup

end Expansion

namespace Compiler

variable {limit : Nat} {result : Except Error Build}

open Expansion

variable {compiler : Compiler} {name source : Text} {body : List Node} {setup : Setup}

/-- A setup that a compiler may work with: its own loader, and its own limit if it has one. -/
structure WorksWith (compiler : Compiler) (setup : Setup) : Prop where
  loader : setup.loader = compiler.loader
  limit : ∀ limit, compiler.limit? = some limit → setup.limit = limit

/-- A compiler with a limit works with one setup only. -/
theorem WorksWith.eq_of_limit (h : compiler.WorksWith setup)
    (hlimit : compiler.limit? = some limit) :
    setup = ⟨compiler.loader, limit⟩ := by
  obtain ⟨loader, other⟩ := setup
  rw [← h.loader, ← h.limit limit hlimit]

/-- What a compiler comes to is what comes about under a limit; and if it has none, one that does not
cut the expansion off. -/
theorem exists_setup_of_expand {state : State} {progress : Progress}
    (h : compiler.expand name body state = some progress) :
    ∃ setup, compiler.WorksWith setup ∧
      visitAll (visit setup setup.limit [] name) body state = progress ∧
        (compiler.limit? = none → progress.isCutOff = false) := by
  unfold expand at h
  split at h
  case h_1 limit hlimit =>
    refine ⟨⟨compiler.loader, limit⟩, ⟨rfl, fun other hother => ?_⟩, Option.some.inj h, fun hnone => ?_⟩
    · exact Option.some.inj (hlimit.symm.trans hother)
    · cases hnone.symm.trans hlimit
  case h_2 hnone =>
    obtain ⟨n, hprogress, huncut⟩ := exists_limit_of_visitUnlimited h
    refine ⟨⟨compiler.loader, n⟩, ⟨rfl, fun other hother => ?_⟩, hprogress, fun _ => huncut⟩
    cases hnone.symm.trans hother

/-- What a compiler makes of a parsed unit is what an expansion under a limit makes of it. -/
theorem exists_setup_of_buildBody (h : compiler.buildBody name body = some result) :
    ∃ setup, compiler.WorksWith setup ∧ setup.buildBody name body = result := by
  obtain ⟨progress, hexpand, rfl⟩ := Option.map_eq_some_iff.mp h
  obtain ⟨setup, hworks, rfl, _⟩ := exists_setup_of_expand hexpand
  exact ⟨setup, hworks, rfl⟩

/-- What a compiler makes of a source is what an expansion under a limit makes of it. -/
theorem exists_setup_of_build (h : compiler.build name source = some result) :
    ∃ setup, compiler.WorksWith setup ∧ setup.build name source = result := by
  unfold build at h
  split at h
  case h_1 failure hparse =>
    -- A source that cannot be parsed is refused under every limit.
    refine ⟨⟨compiler.loader, compiler.limit?.getD 0⟩, ⟨rfl, fun limit hlimit => ?_⟩, ?_⟩
    · rw [hlimit, Option.getD_some]
    · rw [Setup.build, hparse]
      exact Option.some.inj h
  case h_2 body hparse =>
    obtain ⟨setup, hworks, hresult⟩ := exists_setup_of_buildBody h
    refine ⟨setup, hworks, ?_⟩
    rw [Setup.build, hparse]
    exact hresult

/-- Under a limit a compiler always comes to a result. -/
theorem buildBody_of_limit (h : compiler.limit? = some limit) (name : Text) (body : List Node) :
    compiler.buildBody name body = some (Setup.buildBody ⟨compiler.loader, limit⟩ name body) := by
  rw [buildBody, expand, h]
  rfl

/-- Under a limit a compiler always comes to a result, whatever the source. -/
theorem build_of_limit (h : compiler.limit? = some limit) (name source : Text) :
    compiler.build name source = some (Setup.build ⟨compiler.loader, limit⟩ name source) := by
  rw [build, Setup.build]
  split
  · rfl
  · exact buildBody_of_limit h name _

end Compiler

end Tapestry

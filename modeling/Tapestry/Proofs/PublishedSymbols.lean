import Tapestry.Proofs.FailurePoints
import Tapestry.Proofs.Numerals
import Tapestry.Proofs.Provenance
import Tapestry.Proofs.RootScope

/-!
# The symbols that a build publishes

A build publishes what the root scope holds at its end. Which symbols these are can be told from the
tree of visits. A visit that reserves a cell or defines a template installs a symbol, and its
lifetime says how far out. The symbol gets to the root scope if it lasts everywhere, if no expansion
is around the visit, or if it lasts outside and there is one. Units asked for are no expansions.

No two symbols of the root scope have one name.
-/

namespace Tapestry

/-! ## Installations in the root scope -/

/-- Whether a symbol installed with a lifetime gets to the root scope, with so many scopes below the
root around the statement. -/
def Lifetime.ReachesRoot (lifetime : Lifetime) (depth : Nat) : Prop :=
  lifetime = .everywhere ∨ depth = 0 ∨ lifetime = .outside ∧ depth = 1

namespace Env

variable {env after : Env} {symbol : Symbol} {lifetime : Lifetime}

/-- Installing in the root scope of an environment is installing in that scope. -/
theorem rootScope_of_pushRoot (h : pushRoot symbol env = .ok after) :
    env.rootScope.push symbol = .ok after.rootScope := by
  induction env generalizing after with
  | root scope =>
    obtain ⟨next, hpush, rfl⟩ := exists_of_map_eq_ok h
    exact hpush
  | nested scope env ih =>
    obtain ⟨next, hpush, rfl⟩ := exists_of_map_eq_ok h
    have hroot := ih hpush
    exact hroot

/-- Installing in the innermost scope changes the root scope if that is the innermost. -/
theorem rootScope_of_pushHere (h : pushHere symbol env = .ok after) :
    env.depth = 0 ∧ env.rootScope.push symbol = .ok after.rootScope ∨
      ¬ env.depth = 0 ∧ after.rootScope = env.rootScope := by
  cases env with
  | root scope =>
    obtain ⟨next, hpush, rfl⟩ := exists_of_map_eq_ok h
    exact .inl ⟨rfl, hpush⟩
  | nested scope env =>
    obtain ⟨next, _, rfl⟩ := exists_of_map_eq_ok h
    exact .inr ⟨Nat.succ_ne_zero _, rfl⟩

/-- A symbol is installed in the root scope if its lifetime reaches that far, and else the root scope
stays as it is. -/
theorem rootScope_of_push (h : env.push symbol lifetime = .ok after) :
    lifetime.ReachesRoot env.depth ∧ env.rootScope.push symbol = .ok after.rootScope ∨
      ¬ lifetime.ReachesRoot env.depth ∧ after.rootScope = env.rootScope := by
  cases lifetime with
  | everywhere => exact .inl ⟨.inl rfl, rootScope_of_pushRoot h⟩
  | outside =>
    cases env with
    | root scope =>
      obtain ⟨next, hpush, rfl⟩ := exists_of_map_eq_ok h
      exact .inl ⟨.inr (.inl rfl), hpush⟩
    | nested scope env =>
      obtain ⟨next, hpush, rfl⟩ := exists_of_map_eq_ok h
      have hdepth : Lifetime.outside.ReachesRoot (env.depth + 1) ↔ env.depth = 0 := by
        simp [Lifetime.ReachesRoot]
      have houter := rootScope_of_pushHere hpush
      rw [← hdepth] at houter
      exact houter
  | here | unknown code =>
    have hpush : pushHere symbol env = .ok after := h
    simpa [Lifetime.ReachesRoot] using rootScope_of_pushHere hpush

end Env

/-! ## What a visit installs -/

/-- A visit installs a symbol with a lifetime: it has reserved a cell, as its note tells, or it has
defined a template. -/
inductive Visit.Installs (visit : Visit) : Symbol → Lifetime → Prop where
  | register {f name token cell} (function : visit.function = some f) (action : f.action = .register)
      (named : Bindings.identifier? visit.bindings "name" = some (name, token))
      (note : visit.code = [.nop ("reg " ++ name ++ " :" ++ Number.nat cell)]) :
    Installs visit (.var ⟨name, ⟨.cell cell, token⟩⟩) .here
  | define {f wantsBlock lifetime name token template} (function : visit.function = some f)
      (action : f.action = .define wantsBlock)
      (lasting : Bindings.lifetime? visit.bindings "lifetime" = some lifetime)
      (named : Bindings.identifier? visit.bindings "name" = some (name, token))
      (defined : Expansion.definedFunction wantsBlock visit name token lifetime = .ok template)
      (note : visit.code = [.nop template.signature]) :
    Installs visit (.func template) lifetime

namespace Visit.Installs

variable {visit : Visit} {symbol other : Symbol} {lifetime lasting : Lifetime} {f : Function}

/-- A visit that installs a symbol emits a note. -/
theorem code_ne_nil (h : visit.Installs symbol lifetime) : visit.code ≠ [] := by
  cases h with
  | register _ _ _ note => simp [note]
  | define _ _ _ _ _ note => simp [note]

/-- What installs symbols is the call of a function that reserves cells or defines templates. -/
theorem exists_action (h : visit.Installs symbol lifetime) :
    ∃ f, visit.function = some f ∧
      (f.action = .register ∨ ∃ wantsBlock, f.action = .define wantsBlock) := by
  cases h with
  | register function action => exact ⟨_, function, .inl action⟩
  | define function action => exact ⟨_, function, .inr ⟨_, action⟩⟩

/-- A visit installs one symbol at most. -/
theorem unique (h : visit.Installs symbol lifetime) (hother : visit.Installs other lasting) :
    symbol = other ∧ lifetime = lasting := by
  cases h with
  | @register f name token cell function action named note =>
    cases hother with
    | @register _ _ _ number function' action' named' note' =>
      obtain ⟨rfl, rfl⟩ := Prod.mk.inj (Option.some.inj (named.symm.trans named'))
      have hnote := congrArg Instruction.comment (List.singleton_inj.mp (note.symm.trans note'))
      obtain rfl : cell = number := Number.nat_inj (List.append_cancel_left hnote)
      exact ⟨rfl, rfl⟩
    | define function' action' =>
      obtain rfl := Option.some.inj (function.symm.trans function')
      cases action.symm.trans action'
  | define function action lasting' named defined note =>
    cases hother with
    | register function' action' =>
      obtain rfl := Option.some.inj (function.symm.trans function')
      cases action.symm.trans action'
    | define function' action' lasting'' named' defined' note' =>
      obtain rfl := Option.some.inj (function.symm.trans function')
      obtain rfl := Action.define.inj (action.symm.trans action')
      obtain rfl := Option.some.inj (lasting'.symm.trans lasting'')
      obtain ⟨rfl, rfl⟩ := Prod.mk.inj (Option.some.inj (named.symm.trans named'))
      obtain rfl := Except.ok.inj (defined.symm.trans defined')
      exact ⟨rfl, rfl⟩

end Visit.Installs

/-- The expansions around a visit, given the visits before it in pre-order: the visits around it
that have opened a scope, but for the root. -/
def Visit.expansions (visit : Visit) (earlier : List Visit) : List Visit :=
  Expansion.scopeOwners (visit.around earlier).dropLast

/-- A build publishes the built-in functions, and what its visits install so that it gets to the
root scope. -/
inductive Build.Publishes (build : Build) : Symbol → Prop where
  | builtin {f} (mem : f ∈ Function.builtins) : Publishes build (.func f)
  | installed {earlier visit later symbol lifetime} (visits_eq : build.visits = earlier ++ visit :: later)
      (installs : visit.Installs symbol lifetime)
      (reaches : lifetime.ReachesRoot (visit.expansions earlier).length) : Publishes build symbol

namespace Expansion

variable {setup : Setup} {name : Text} {body : List Node} {loader : Loader} {state last : State}
  {visit record : Visit} {earlier later : List Visit} {env : Env} {symbol : Symbol} {lifetime : Lifetime}
  {outcome : Step} {frame : Frame}

/-- A finished visit installs a symbol, or the environment stays as it is. -/
theorem Acts.installs (h : Acts loader state visit (.done record env)) :
    env = state.env ∨ ∃ symbol lifetime, record.Installs symbol lifetime ∧
      state.env.push symbol lifetime = .ok env := by
  cases h with
  | idle | emit | included => exact .inl rfl
  | register call action named pushed => exact .inr ⟨_, _, .register rfl action named rfl, pushed⟩
  | define call action lasting named defined pushed =>
    exact .inr ⟨_, _, .define rfl action lasting named defined rfl, pushed⟩

/-- A visit that goes on and whose record installs a symbol is finished, with that symbol in the
environment. -/
theorem Acts.pushes (h : Acts loader state visit outcome) (hcode : visit.code = [])
    (hfunction : visit.function = none) (hgo : ∀ record fault, outcome ≠ .fail record fault)
    (hinstalls : outcome.record.Installs symbol lifetime) :
    ∃ env, outcome = .done outcome.record env ∧ state.env.push symbol lifetime = .ok env := by
  obtain ⟨f, hf, haction⟩ := hinstalls.exists_action
  cases h with
  | fail => exact absurd rfl (hgo _ _)
  | splice => cases hfunction.symm.trans hf
  | idle => exact absurd hcode hinstalls.code_ne_nil
  | register call action named pushed =>
    obtain ⟨rfl, rfl⟩ := hinstalls.unique (.register rfl action named rfl)
    exact ⟨_, rfl, pushed⟩
  | define call action lasting named defined pushed =>
    obtain ⟨rfl, rfl⟩ := hinstalls.unique (.define rfl action lasting named defined rfl)
    exact ⟨_, rfl, pushed⟩
  | emit _ action | included _ action | unit _ action | template _ action | blockTemplate _ action =>
    cases hf
    simp [action] at haction

/-! ## Distinct names -/

/-- The names of the root scope are distinct. -/
def State.Distinct (state : State) : Prop := (state.rootSymbols.map Symbol.name).Nodup

/-- Whatever an expression does, the names of the root scope stay distinct. -/
theorem spans_distinct (setup : Setup) :
    Spans setup fun before after => before.Distinct → after.Distinct where
  refl _ := id
  trans hbefore hafter := hafter ∘ hbefore
  done := by
    intro trail file node state record env hstep hstate
    change (env.rootScope.symbols.map Symbol.name).Nodup
    rcases (acts_of_stepAt hstep).installs with rfl | ⟨symbol, lifetime, _, hpush⟩
    · exact hstate
    · rcases Env.rootScope_of_push hpush with ⟨_, hroot⟩ | ⟨_, hsame⟩
      · exact Scope.nodup_of_push hroot hstate
      · rw [hsame]
        exact hstate
  leave := by
    intro trail file node state record scope body origin after _ hafter hstate
    rw [State.Distinct, rootSymbols_leave]
    exact hafter hstate
  endUnit := fun _ hafter hstate => hafter hstate

/-- At first the names of the root scope are distinct. -/
theorem distinct_initial (name : Text) (body : List Node) : (State.initial name body).Distinct := by
  change (Scope.initial.symbols.map Symbol.name).Nodup
  decide

/-- At the end of an expansion the names of the root scope are distinct. -/
theorem distinct_of_ready (hrun : run setup name body = .ready last) : last.Distinct :=
  (spans_distinct setup).visitAll (fun _ _ _ => (spans_distinct setup).visit) hrun
    (distinct_initial name body)

/-! ## Published symbols -/

/-- The expansions around a visit are as many as the scopes around the point where it is made. -/
theorem length_expansions (hreached : Reached setup name body frame)
    (hdepth : record.depth = frame.trail.length + 1) :
    (record.expansions frame.state.visits.reverse).length = frame.state.env.depth := by
  have haround : record.around frame.state.visits.reverse = frame.trail ++ [Visit.root name body] := by
    rw [Visit.around, List.reverse_reverse, hdepth]
    exact enclosing_of_reached hreached
  have hlength := (openedBy_of_reached hreached).length_eq
  rw [scopeOwners, List.filter_append, List.length_append] at hlength
  rw [Visit.expansions, haround, List.dropLast_concat, scopeOwners]
  exact Nat.succ.inj hlength

/-- A symbol installed in the root scope at a point reached is published at the end. -/
theorem Frame.Installs.publishes (hrun : run setup name body = .ready last)
    (hreached : Reached setup name body frame) (h : frame.Installs setup symbol) :
    Build.Publishes ⟨last.visits.reverse, last.files, last.env.rootScope⟩ symbol := by
  cases h with
  | @mk levels trail file node rest state record env symbol stepped installed =>
    have hacts := acts_of_stepAt stepped
    rcases hacts.installs with rfl | ⟨pushed, lifetime, hinstalls, hpush⟩
    · exact absurd installed (by simp [State.rootSymbols])
    · rcases Env.rootScope_of_push hpush with ⟨hreaches, hroot⟩ | ⟨_, hsame⟩
      · rw [Scope.eq_of_push hroot] at installed
        obtain rfl := List.singleton_inj.mp (List.append_cancel_left installed)
        -- The visit is recorded behind those made so far, and others follow.
        have hnext : Reached setup name body
            ⟨levels + 1, trail, file, rest, { state.record record with env }⟩ :=
          hreached.tail (.next (by rw [visit_succ, stepped]))
        obtain ⟨added, hadded, _⟩ := (continues_of_reached hnext).visits
        have hvisits : last.visits.reverse = state.visits.reverse ++ record :: added := by
          rw [hrun] at hadded
          exact hadded.trans (by simp [State.record])
        have hlength := length_expansions hreached hacts.record_place.1
        exact .installed hvisits hinstalls (hlength.symm ▸ hreaches)
      · rw [hsame] at installed
        exact absurd installed (by simp [State.rootSymbols])

/-- A visit of an expansion, given the visits before it, was made by a step that did not fail. -/
inductive SteppedAt (setup : Setup) (name : Text) (body : List Node) : List Visit → Visit → Prop where
  | mk {levels trail file node rest state}
      (reached : Reached setup name body ⟨levels + 1, trail, file, node :: rest, state⟩)
      (goes_on : ∀ other fault, stepAt setup trail file node state ≠ .fail other fault) :
    SteppedAt setup name body state.visits.reverse (stepAt setup trail file node state).record

/-- In an expansion that comes to its end, every visit that calls a function was made by a step that
did not fail. -/
theorem steppedAt_of_ready {f : Function} (hrun : run setup name body = .ready last)
    (hvisits : last.visits.reverse = earlier ++ record :: later) (hfunction : record.function = some f) :
    SteppedAt setup name body earlier record := by
  have hwhole : (run setup name body).visits = last.visits.reverse := by rw [hrun]; rfl
  obtain ⟨⟨levels, trail, file, nodes, state⟩, hreached, hmakes⟩ :=
    exists_reached_of_function (hwhole.trans hvisits) hfunction
  rw [hrun] at hmakes
  obtain rfl := hmakes.earlier_eq
  cases hmakes.records with
  | tooDeep =>
    obtain ⟨_, stopped, error, hstopped⟩ := hmakes.below_of_tooDeep
    cases hstopped
  | step => exact .mk hreached hmakes.stepAt_ne_fail

/-- What a visit installs so that it gets to the root scope is there at the end. -/
theorem SteppedAt.mem_rootSymbols (hrun : run setup name body = .ready last)
    (h : SteppedAt setup name body earlier record) (hinstalls : record.Installs symbol lifetime)
    (hreaches : lifetime.ReachesRoot (record.expansions earlier).length) : symbol ∈ last.rootSymbols := by
  cases h with
  | @mk levels trail file node rest state reached goes_on =>
    have hacts := acts_of_stepAt (rfl : stepAt setup trail file node state = _)
    obtain ⟨env, hstep, hpush⟩ := hacts.pushes rfl rfl goes_on hinstalls
    rw [length_expansions reached hacts.record_place.1] at hreaches
    rcases Env.rootScope_of_push hpush with ⟨_, hroot⟩ | ⟨hnot, _⟩
    · have hnext : Reached setup name body ⟨levels + 1, trail, file, rest,
          { state.record (stepAt setup trail file node state).record with env }⟩ :=
        reached.tail (.next (by rw [visit_succ, hstep]; rfl))
      have hmem : symbol ∈ env.rootScope.symbols := by
        rw [Scope.eq_of_push hroot]
        exact List.mem_append_right _ List.mem_cons_self
      exact (rootSymbols_prefix_of_reached hrun hnext).subset hmem
    · exact absurd hreaches hnot

end Expansion

/-- The symbols in the root scope of a build are those that it publishes. -/
theorem Build.mem_scope_iff {setup : Expansion.Setup} {name source : Text} {result : Build} {symbol : Symbol}
    (h : setup.build name source = .ok result) :
    symbol ∈ result.scope.symbols ↔ result.Publishes symbol := by
  obtain ⟨body, last, _, hrun, rfl⟩ := Expansion.Setup.exists_ready_of_build h
  constructor
  · intro hsymbol
    rcases Expansion.exists_installs_of_ready hrun hsymbol with ⟨f, hf, rfl⟩ | ⟨frame, hreached, hinstalls⟩
    · exact .builtin hf
    · exact hinstalls.publishes hrun hreached
  · intro hpublishes
    cases hpublishes with
    | builtin mem =>
      have hfirst := Expansion.rootSymbols_prefix_of_visitAll hrun
      exact hfirst.subset (List.mem_map_of_mem mem)
    | installed visits_eq installs reaches =>
      obtain ⟨f, hfunction, _⟩ := installs.exists_action
      exact (Expansion.steppedAt_of_ready hrun visits_eq hfunction).mem_rootSymbols hrun installs reaches

/-- No two symbols in the root scope of a build have one name. -/
theorem Build.nodup_names {setup : Expansion.Setup} {name source : Text} {result : Build}
    (h : setup.build name source = .ok result) : (result.scope.symbols.map Symbol.name).Nodup := by
  obtain ⟨body, last, _, hrun, rfl⟩ := Expansion.Setup.exists_ready_of_build h
  exact Expansion.distinct_of_ready hrun

end Tapestry

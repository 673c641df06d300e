import Tapestry.Proofs.ScopeChain

/-!
# The root scope of an expansion

The root scope starts with the built-in functions and only grows: a symbol that is found there under
a name at some point is the one found there at the end. Every other symbol at the end was installed
by a statement, at a point the expansion has reached.
-/

namespace Tapestry

/-- When an environment grows, its root scope does at most. -/
theorem Env.Grows.rootScope {symbol : Symbol} {env after : Env} (h : Grows symbol env after) :
    Scope.Grows symbol env.rootScope after.rootScope := by
  induction h with
  | root scope_grows => exact scope_grows
  | nested _ _ ih => exact ih

/-- The root scope stays when a scope is left. -/
theorem Env.rootScope_outer (env : Env) : env.outer.rootScope = env.rootScope := by
  cases env <;> rfl

/-- What is found in the front of a scope is found in the whole scope. -/
theorem Scope.find?_of_prefix {scope whole : Scope} {name : Text} {symbol : Symbol}
    (h : scope.symbols <+: whole.symbols) (hfound : scope.find? name = some symbol) :
    whole.find? name = some symbol := by
  obtain ⟨rest, hrest⟩ := h
  rw [find?, ← hrest, List.find?_append]
  rw [find?] at hfound
  rw [hfound, Option.some_or]

namespace Expansion

variable {setup : Setup} {levels : Nat} {trail : List Visit} {file name : Text} {node : Node}
  {nodes rest body : List Node} {state after last : State} {symbol : Symbol} {frame before : Frame}
  {record : Visit}

/-- The symbols of the root scope in a state. -/
def State.rootSymbols (state : State) : List Symbol := state.env.rootScope.symbols

/-- Leaving a scope leaves the symbols of the root scope. -/
theorem rootSymbols_leave (state : State) : state.leave.rootSymbols = state.rootSymbols :=
  congrArg Scope.symbols (Env.rootScope_outer state.env)

/-- A finished visit installs one symbol in the root scope, or none. -/
theorem rootSymbols_of_done {env : Env} (h : stepAt setup trail file node state = .done record env) :
    env.rootScope.symbols = state.rootSymbols ∨
      ∃ symbol, env.rootScope.symbols = state.rootSymbols ++ [symbol] := by
  cases acts_of_stepAt h with
  | idle | emit | included => exact .inl rfl
  | register _ _ _ pushed =>
    exact (Env.grows_of_push pushed).rootScope.symbols.imp_right fun h => ⟨_, h⟩
  | define _ _ _ _ _ pushed =>
    exact (Env.grows_of_push pushed).rootScope.symbols.imp_right fun h => ⟨_, h⟩

/-! ## Growth -/

/-- Whatever an expression does, the root scope keeps its symbols in front. -/
theorem spans_rootSymbols (setup : Setup) :
    Spans setup fun before after => before.rootSymbols <+: after.rootSymbols where
  refl state := List.prefix_refl _
  trans := List.IsPrefix.trans
  done := by
    intro trail file node state record env hstep
    change state.rootSymbols <+: env.rootScope.symbols
    rcases rootSymbols_of_done hstep with hsame | ⟨symbol, hmore⟩
    · exact ⟨[], (List.append_nil _).trans hsame.symm⟩
    · exact ⟨[symbol], hmore.symm⟩
  leave := by
    intro trail file node state record scope body origin after _ hafter
    rw [rootSymbols_leave]
    exact hafter
  endUnit := fun _ hafter => hafter

/-- The built-in functions stay in front in the root scope. -/
theorem initial_prefix_of_reached (h : Reached setup name body frame) :
    Scope.initial.symbols <+: frame.state.rootSymbols := by
  induction h with
  | refl => exact List.prefix_refl _
  | tail _ hleads ih =>
    cases hleads with
    | next visited => exact ih.trans ((spans_rootSymbols setup).visit visited)
    | enter | unit => exact ih

/-- A point from which the expressions still to be visited lead to a state whose root scope begins
that of a last state. -/
def Frame.EndsBefore (setup : Setup) (last : State) (frame : Frame) : Prop :=
  ∃ after, visitAll (visit setup frame.levels frame.trail frame.file) frame.nodes frame.state =
    .ready after ∧ after.rootSymbols <+: last.rootSymbols

/-- The root scope only grows on the way to the end of a list. -/
theorem rootSymbols_prefix_of_visitAll
    (h : visitAll (visit setup levels trail file) nodes state = .ready after) :
    state.rootSymbols <+: after.rootSymbols :=
  (spans_rootSymbols setup).visitAll (fun _ _ _ => (spans_rootSymbols setup).visit) h

/-- Where a list ends, so does the body that its first expression leads to. -/
theorem Frame.EndsBefore.of_descends {origin : Text} {entered : State} {back : State → State}
    (h : Frame.EndsBefore setup last ⟨levels + 1, trail, file, node :: rest, state⟩)
    (hdescends : Descends setup trail file node state record origin body entered back) :
    Frame.EndsBefore setup last ⟨levels, record :: trail, origin, body, entered⟩ := by
  obtain ⟨after, hafter, hprefix⟩ := h
  cases hfirst : visit setup (levels + 1) trail file node state with
  | stopped middle error => simp [visitAll, hfirst, Progress.andThen] at hafter
  | ready middle =>
    simp only [visitAll, hfirst, Progress.andThen] at hafter
    rw [hdescends.visit_eq] at hfirst
    obtain ⟨inner, hinner, rfl⟩ := exists_of_mapReady hfirst
    have hback : (back inner).rootSymbols = inner.rootSymbols := by
      cases hdescends with
      | enter => exact rootSymbols_leave inner
      | unit => rfl
    have hbehind := rootSymbols_prefix_of_visitAll hafter
    rw [hback] at hbehind
    exact ⟨inner, hinner, hbehind.trans hprefix⟩

/-- Where the list at a point ends, so do the lists that it leads to. -/
theorem Frame.EndsBefore.of_leads {next : Frame} (h : before.EndsBefore setup last)
    (hleads : Leads setup before next) : next.EndsBefore setup last := by
  cases hleads with
  | next visited =>
    obtain ⟨after, hafter, hprefix⟩ := h
    refine ⟨after, ?_, hprefix⟩
    simpa only [visitAll, visited, Progress.andThen] using hafter
  | enter entered => exact h.of_descends (.enter entered)
  | unit begun => exact h.of_descends (.unit begun)

/-- The root scope at a point reached begins the root scope at the end. -/
theorem rootSymbols_prefix_of_reached (hrun : run setup name body = .ready last)
    (h : Reached setup name body frame) : frame.state.rootSymbols <+: last.rootSymbols := by
  have hends : frame.EndsBefore setup last := by
    induction h with
    | refl => exact ⟨last, hrun, List.prefix_refl _⟩
    | tail _ hleads ih => exact ih.of_leads hleads
  obtain ⟨after, hafter, hprefix⟩ := hends
  exact (rootSymbols_prefix_of_visitAll hafter).trans hprefix

/-! ## Installations -/

/-- A point whose first expression installs a symbol in the root scope. -/
inductive Frame.Installs (setup : Setup) : Frame → Symbol → Prop where
  | mk {levels trail file node rest state record env symbol}
      (stepped : stepAt setup trail file node state = .done record env)
      (installed : env.rootScope.symbols = state.rootSymbols ++ [symbol]) :
    Installs setup ⟨levels + 1, trail, file, node :: rest, state⟩ symbol

/-- A symbol is installed at a point that a point leads to. -/
def Frame.InstallsBelow (setup : Setup) (frame : Frame) (symbol : Symbol) : Prop :=
  ∃ below, Relation.ReflTransGen (Leads setup) frame below ∧ below.Installs setup symbol

/-- What is installed below a point is installed below those that lead to it. -/
theorem Frame.InstallsBelow.of_leads {after : Frame} (hleads : Leads setup before after)
    (h : after.InstallsBelow setup symbol) : before.InstallsBelow setup symbol := by
  obtain ⟨below, hbelow, hinstalls⟩ := h
  exact ⟨below, .head hleads hbelow, hinstalls⟩

/-- What a list of expressions adds is installed at points below the list, if that is so for each
expression. -/
theorem visitAll_installs
    (hvisit : ∀ (node : Node) (rest : List Node) (state after : State),
      visit setup levels trail file node state = .ready after → ∀ symbol ∈ after.rootSymbols,
        symbol ∈ state.rootSymbols ∨
          Frame.InstallsBelow setup ⟨levels, trail, file, node :: rest, state⟩ symbol)
    (h : visitAll (visit setup levels trail file) nodes state = .ready after) :
    ∀ symbol ∈ after.rootSymbols,
      symbol ∈ state.rootSymbols ∨
        Frame.InstallsBelow setup ⟨levels, trail, file, nodes, state⟩ symbol := by
  induction nodes generalizing state with
  | nil =>
    obtain rfl : state = after := Progress.ready.inj h
    exact fun _ hsymbol => .inl hsymbol
  | cons node rest ih =>
    intro symbol hsymbol
    cases hfirst : visit setup levels trail file node state with
    | stopped middle error => simp [visitAll, hfirst, Progress.andThen] at h
    | ready middle =>
      simp only [visitAll, hfirst, Progress.andThen] at h
      rcases ih h symbol hsymbol with hold | hbelow
      · exact hvisit node rest state middle hfirst symbol hold
      · exact .inr (hbelow.of_leads (.next hfirst))

/-- What a visit adds, with everything below it, is installed at points below it. -/
theorem visit_installs (node : Node) (rest : List Node) (state after : State)
    (h : visit setup levels trail file node state = .ready after) :
    ∀ symbol ∈ after.rootSymbols,
      symbol ∈ state.rootSymbols ∨
        Frame.InstallsBelow setup ⟨levels, trail, file, node :: rest, state⟩ symbol := by
  induction levels generalizing trail file node rest state after with
  | zero => cases h
  | succ levels ih =>
    intro symbol hsymbol
    rw [visit_succ] at h
    cases hstep : stepAt setup trail file node state with
    | fail record fault => simp [hstep] at h
    | done record env =>
      obtain rfl : { state.record record with env } = after := by simpa [hstep] using h
      rcases rootSymbols_of_done hstep with hsame | ⟨added, hmore⟩
      · exact .inl (hsame ▸ hsymbol)
      · have hcases : symbol ∈ state.rootSymbols ++ [added] := hmore ▸ hsymbol
        rcases List.mem_append.mp hcases with hold | hnew
        · exact .inl hold
        · obtain rfl := List.mem_singleton.mp hnew
          exact .inr ⟨_, .refl, .mk hstep hmore⟩
    | enter record scope inside origin =>
      simp only [hstep] at h
      obtain ⟨inner, hinner, rfl⟩ := exists_of_mapReady h
      rw [rootSymbols_leave] at hsymbol
      exact (visitAll_installs ih hinner symbol hsymbol).imp_right fun hbelow =>
        hbelow.of_leads (.enter hstep)
    | unit record unit inside =>
      simp only [hstep] at h
      obtain ⟨inner, hinner, rfl⟩ := exists_of_mapReady h
      exact (visitAll_installs ih hinner symbol hsymbol).imp_right fun hbelow =>
        hbelow.of_leads (.unit hstep)

/-- Every symbol of the root scope at the end is a built-in function, or it was installed at a point
the expansion has reached. -/
theorem exists_installs_of_ready (hrun : run setup name body = .ready last)
    (hsymbol : symbol ∈ last.rootSymbols) :
    (∃ f ∈ Function.builtins, symbol = .func f) ∨
      ∃ frame, Reached setup name body frame ∧ frame.Installs setup symbol := by
  rcases visitAll_installs visit_installs hrun symbol hsymbol with hold | hbelow
  · obtain ⟨f, hf, rfl⟩ := List.mem_map.mp hold
    exact .inl ⟨f, hf, rfl⟩
  · exact .inr hbelow

end Expansion

end Tapestry

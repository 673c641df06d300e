import Tapestry.Proofs.VisitTree

/-!
# The scopes around a visit

The environment at a point of an expansion is the chain of the scopes that the visits around the
point have opened, innermost first. Visits that ask for a unit open none: the unit runs in the
environment they run in. So the chains of scopes and of visits stay aligned, and the innermost
block registered for a block template is the one that the nearest visit around calling the
template has passed.
-/

namespace Tapestry

/-! ## Growing environments -/

/-- A scope with at most one symbol more, behind the others. -/
structure Scope.Grows (symbol : Symbol) (before after : Scope) : Prop where
  symbols : after.symbols = before.symbols ∨ after.symbols = before.symbols ++ [symbol]
  blocks : after.blocks = before.blocks

/-- A scope grows by an installed symbol. -/
theorem Scope.grows_of_push {scope after : Scope} {symbol : Symbol}
    (h : scope.push symbol = .ok after) : Scope.Grows symbol scope after := by
  rw [eq_of_push h]
  exact ⟨.inr rfl, rfl⟩

namespace Env

variable {after env : Env} {symbol : Symbol}

/-- An environment of the same scopes, each with at most one symbol more. -/
inductive Grows (symbol : Symbol) : Env → Env → Prop where
  | root {scope after} (scope_grows : Scope.Grows symbol scope after) :
    Grows symbol (.root scope) (.root after)
  | nested {scope after env outer} (scope_grows : Scope.Grows symbol scope after)
      (outer_grows : Grows symbol env outer) : Grows symbol (.nested scope env) (.nested after outer)

/-- An environment that stays as it is grows. -/
theorem Grows.refl (symbol : Symbol) (env : Env) : Grows symbol env env := by
  induction env with
  | root scope => exact .root ⟨.inl rfl, rfl⟩
  | nested scope env ih => exact .nested ⟨.inl rfl, rfl⟩ ih

/-- Growing environments keep their depth. -/
theorem Grows.depth_eq (h : Grows symbol env after) : after.depth = env.depth := by
  induction h with
  | root => rfl
  | nested _ _ ih => rw [depth, depth, ih]

/-- Installing in the innermost scope makes an environment grow. -/
theorem grows_of_pushHere (h : pushHere symbol env = .ok after) : Grows symbol env after := by
  cases env with
  | root scope =>
    obtain ⟨next, hpush, rfl⟩ := exists_of_map_eq_ok h
    exact .root (Scope.grows_of_push hpush)
  | nested scope env =>
    obtain ⟨next, hpush, rfl⟩ := exists_of_map_eq_ok h
    exact .nested (Scope.grows_of_push hpush) (.refl symbol env)

/-- Installing in the root scope makes an environment grow. -/
theorem grows_of_pushRoot (h : pushRoot symbol env = .ok after) : Grows symbol env after := by
  induction env generalizing after with
  | root scope =>
    obtain ⟨next, hpush, rfl⟩ := exists_of_map_eq_ok h
    exact .root (Scope.grows_of_push hpush)
  | nested scope env ih =>
    obtain ⟨next, hpush, rfl⟩ := exists_of_map_eq_ok h
    exact .nested ⟨.inl rfl, rfl⟩ (ih hpush)

/-- Installing around the innermost scope makes an environment grow. -/
theorem grows_of_pushOuter (h : pushOuter symbol env = .ok after) : Grows symbol env after := by
  cases env with
  | root scope =>
    obtain ⟨next, hpush, rfl⟩ := exists_of_map_eq_ok h
    exact .root (Scope.grows_of_push hpush)
  | nested scope env =>
    obtain ⟨next, hpush, rfl⟩ := exists_of_map_eq_ok h
    exact .nested ⟨.inl rfl, rfl⟩ (grows_of_pushHere hpush)

/-- An environment grows by an installed symbol, whatever its lifetime. -/
theorem grows_of_push {lifetime : Lifetime} (h : env.push symbol lifetime = .ok after) :
    Grows symbol env after := by
  cases lifetime with
  | everywhere => exact grows_of_pushRoot h
  | outside => exact grows_of_pushOuter h
  | here => exact grows_of_pushHere h
  | unknown code => exact grows_of_pushHere h

end Env

/-! ## The scope of a visit -/

namespace Visit

variable {visit : Visit} {scope : Scope}

/-- A visit asks for a unit just if its function does. -/
theorem asksForUnit_iff {f : Function} (h : visit.function = some f) :
    visit.asksForUnit = true ↔ f.action = .expandUnit := by
  rw [asksForUnit, h, Option.any_some]
  cases f.action <;> simp

/-- The name of the block template that a visit calls. -/
def blockTemplate? (visit : Visit) : Option Text :=
  visit.function.bind fun function =>
    match function.action with
    | .blockTemplate _ => some function.name
    | _ => none

/-- The block that the expression of a visit owns, as it is passed to a block template. -/
def block (visit : Visit) : CallerBlock := ⟨visit.node.body, visit.file, visit.parse⟩

/-- What a scope that a visit has opened holds: first its arguments, and its block if it calls a
block template. -/
structure Opens (visit : Visit) (scope : Scope) : Prop where
  arguments : visit.bindings.map .var <+: scope.symbols
  blocks : scope.blocks = visit.blockTemplate?.toList.map fun owner => (owner, visit.block)

/-- A visit that asks for a unit calls no block template. -/
theorem blockTemplate?_of_asksForUnit (h : visit.asksForUnit = true) :
    visit.blockTemplate? = none := by
  unfold asksForUnit at h
  unfold blockTemplate?
  cases hfunction : visit.function with
  | none => rfl
  | some function =>
    rw [hfunction, Option.any_some] at h
    rw [Option.bind_some]
    split at h
    case h_1 haction => rw [haction]
    case h_2 => cases h

/-- The scope of a visit may grow. -/
theorem Opens.grows {after : Scope} {symbol : Symbol} (h : visit.Opens scope)
    (hgrows : Scope.Grows symbol scope after) : visit.Opens after := by
  refine ⟨?_, hgrows.blocks.trans h.blocks⟩
  rcases hgrows.symbols with hsame | hmore
  · exact hsame ▸ h.arguments
  · exact hmore ▸ h.arguments.trans (List.prefix_append _ _)

/-- The block registered in the scope of a visit is its own, if it calls the template asked for. -/
theorem Opens.block?_eq (h : visit.Opens scope) (owner : Text) :
    scope.block? owner = if visit.blockTemplate? = some owner then some visit.block else none := by
  rw [Scope.block?, h.blocks]
  cases visit.blockTemplate? with
  | none => simp
  | some name =>
    by_cases hname : name = owner
    · simp [hname]
    · simp [hname, Ne.symm hname]

end Visit

/-- The scopes of an environment were opened by visits, innermost first, each by the one whose
own scope has its depth. -/
inductive Env.OpenedBy : List Visit → Env → Prop where
  | root {visit scope} (place : visit.scopeDepth = 0) (opens : visit.Opens scope) :
    OpenedBy [visit] (.root scope)
  | nested {visit around scope env} (place : visit.scopeDepth = env.depth + 1)
      (opens : visit.Opens scope) (outer : OpenedBy around env) :
    OpenedBy (visit :: around) (.nested scope env)

namespace Env.OpenedBy

variable {visits : List Visit} {env : Env}

/-- There is one scope for each visit. -/
theorem length_eq (h : OpenedBy visits env) : visits.length = env.depth + 1 := by
  induction h with
  | root => rfl
  | nested _ _ _ ih => rw [List.length_cons, ih, depth]

/-- The scopes may grow. -/
theorem grows {after : Env} {symbol : Symbol} (h : OpenedBy visits env)
    (hgrows : Grows symbol env after) : OpenedBy visits after := by
  induction h generalizing after with
  | root place opens =>
    cases hgrows with
    | root scope_grows => exact .root place (opens.grows scope_grows)
  | nested place opens _ ih =>
    cases hgrows with
    | nested scope_grows outer_grows =>
      exact .nested (place.trans (by rw [outer_grows.depth_eq])) (opens.grows scope_grows)
        (ih outer_grows)

/-- Without its innermost scope, an environment was opened by the other visits. -/
theorem outer {visit : Visit} (h : OpenedBy (visit :: visits) env) (hvisits : visits ≠ []) :
    OpenedBy visits env.outer := by
  cases h with
  | root => exact absurd rfl hvisits
  | nested _ _ outer => exact outer

/-- The innermost block registered for a template is that of the nearest visit calling it. -/
theorem block?_eq (h : OpenedBy visits env) (owner : Text) :
    env.block? owner =
      (visits.find? fun visit => decide (visit.blockTemplate? = some owner)).map Visit.block := by
  induction h with
  | @root visit scope place opens =>
    rw [block?, scopes, List.findSome?_cons, opens.block?_eq]
    by_cases hcalls : visit.blockTemplate? = some owner <;> simp [hcalls]
  | @nested visit around scope env place opens outer ih =>
    rw [block?, scopes, List.findSome?_cons, opens.block?_eq]
    rw [block?] at ih
    by_cases hcalls : visit.blockTemplate? = some owner
    · simp [hcalls]
    · simpa [hcalls] using ih

end Env.OpenedBy

namespace Expansion

variable {body : List Node} {origin name : Text} {scope : Scope} {frame : Frame} {visit : Visit}

/-- The visits that open a scope, among those around a point. -/
def scopeOwners (around : List Visit) : List Visit := around.filter fun visit => !visit.asksForUnit

/-- A visit that asks for a unit owns no scope. -/
theorem scopeOwners_of_asksForUnit (h : visit.asksForUnit = true) (around : List Visit) :
    scopeOwners (visit :: around) = scopeOwners around :=
  List.filter_cons_of_neg (by simp [h])

/-- Any other visit owns the scope entered for it. -/
theorem scopeOwners_of_not_asksForUnit (h : visit.asksForUnit = false) (around : List Visit) :
    scopeOwners (visit :: around) = visit :: scopeOwners around :=
  List.filter_cons_of_pos (by simp [h])

variable {setup : Setup} {trail : List Visit} {file : Text} {node : Node} {state : State}
  {record : Visit}

/-- A visit that leads into a scope asks for no unit. -/
theorem asksForUnit_of_enter
    (h : stepAt setup trail file node state = .enter record scope body origin) :
    record.asksForUnit = false := by
  cases acts_of_stepAt h with
  | splice => rfl
  | template call action => simp [called, Visit.asksForUnit, action]
  | blockTemplate call action => simp [called, Visit.asksForUnit, action]

/-- A visit that leads into a unit asks for it. -/
theorem asksForUnit_of_unit (h : stepAt setup trail file node state = .unit record name body) :
    record.asksForUnit = true := by
  cases acts_of_stepAt h with
  | unit call action => simp [called, Visit.asksForUnit, action]

/-- A scope entered holds the arguments of the visit that leads into it. -/
theorem symbols_of_enter (h : stepAt setup trail file node state = .enter record scope body origin) :
    scope.symbols = record.bindings.map .var := by
  cases acts_of_stepAt h with
  | splice => rfl
  | template _ _ pushed => exact congrArg Scope.symbols (Scope.eq_of_pushAll pushed)
  | blockTemplate _ _ pushed => exact congrArg Scope.symbols (Scope.eq_of_pushAll pushed)

/-- A scope entered is opened by the visit that leads into it. -/
theorem opens_of_enter (h : stepAt setup trail file node state = .enter record scope body origin) :
    record.Opens scope := by
  refine ⟨symbols_of_enter h ▸ List.prefix_refl _, ?_⟩
  cases acts_of_stepAt h with
  | splice => rfl
  | template call action pushed =>
    rw [Scope.eq_of_pushAll pushed]
    simp [called, Visit.blockTemplate?, action, Scope.empty]
  | blockTemplate call action pushed =>
    rw [Scope.eq_of_pushAll pushed]
    simp [called, Visit.blockTemplate?, Visit.block, Visit.start, action, Scope.empty, Scope.addBlock]

/-- Steps keep scopes and visits aligned. -/
theorem openedBy_kept (setup : Setup) (root : Visit) :
    Kept setup (fun trail _ state => state.env.OpenedBy (scopeOwners (trail ++ [root])))
      (fun _ _ => True) where
  done := by
    intro trail file node state record env hstate _ hstep
    cases acts_of_stepAt hstep with
    | idle | emit | included => exact hstate
    | register _ _ _ pushed => exact hstate.grows (Env.grows_of_push pushed)
    | define _ _ _ _ _ pushed => exact hstate.grows (Env.grows_of_push pushed)
  enter := by
    intro trail file node state record scope body origin hstate _ hstep
    refine ⟨?_, fun _ _ => trivial⟩
    obtain ⟨hdepth, henvDepth⟩ := (acts_of_stepAt hstep).record_place
    have hplace : record.scopeDepth = state.env.depth + 1 := by
      rw [Visit.scopeDepth, if_neg (by rw [show record.depth = trail.length + 1 from hdepth]; omega),
        show record.envDepth = state.env.depth from henvDepth]
    rw [List.cons_append, scopeOwners_of_not_asksForUnit (asksForUnit_of_enter hstep)]
    exact .nested hplace (opens_of_enter hstep) hstate
  leave := by
    intro trail file node state record scope body origin after hstate _ hstep hafter
    rw [List.cons_append, scopeOwners_of_not_asksForUnit (asksForUnit_of_enter hstep)] at hafter
    refine hafter.outer fun hnone => ?_
    have hlength := hstate.length_eq
    rw [hnone] at hlength
    cases hlength
  unit := by
    intro trail file node state record name body hstate _ hstep
    refine ⟨?_, fun _ _ => trivial⟩
    rw [List.cons_append, scopeOwners_of_asksForUnit (asksForUnit_of_unit hstep)]
    exact hstate
  endUnit := by
    intro trail file node state record name body after _ _ hstep hafter
    rw [List.cons_append, scopeOwners_of_asksForUnit (asksForUnit_of_unit hstep)] at hafter
    exact hafter

/-- Before the first expression there is the scope of the root alone. -/
theorem openedBy_initial (name : Text) (body : List Node) :
    (State.initial name body).env.OpenedBy (scopeOwners [Visit.root name body]) :=
  .root rfl ⟨List.nil_prefix, rfl⟩

/-- The environment of a point reached is the chain of the scopes opened by the visits around it. -/
theorem openedBy_of_reached (h : Reached setup name body frame) :
    frame.state.env.OpenedBy (scopeOwners (frame.trail ++ [Visit.root name body])) :=
  ((openedBy_kept setup (Visit.root name body)).reached (openedBy_initial name body)
    (fun _ _ => trivial) h).1

/-- The number of scopes around a point falls short of the number of visits around it by the
units asked for. -/
theorem depth_add_countP (h : Reached setup name body frame) :
    frame.state.env.depth + (frame.trail ++ [Visit.root name body]).countP Visit.asksForUnit =
      frame.trail.length := by
  have hlength := (openedBy_of_reached h).length_eq
  have hsplit : (frame.trail ++ [Visit.root name body]).length =
      (frame.trail ++ [Visit.root name body]).countP Visit.asksForUnit +
        (scopeOwners (frame.trail ++ [Visit.root name body])).length := by
    simpa [scopeOwners, List.countP_eq_length_filter] using
      List.length_eq_countP_add_countP Visit.asksForUnit (l := frame.trail ++ [Visit.root name body])
  rw [List.length_append, List.length_singleton] at hsplit
  omega

/-- The innermost block registered for a template at a point reached is that of the nearest visit
around it that calls the template. -/
theorem block?_of_reached (h : Reached setup name body frame) (owner : Text) :
    frame.state.env.block? owner =
      ((frame.trail ++ [Visit.root name body]).find? fun visit =>
        decide (visit.blockTemplate? = some owner)).map Visit.block := by
  rw [(openedBy_of_reached h).block?_eq owner, scopeOwners, List.find?_filter]
  congr 2
  funext visit
  cases hasks : visit.asksForUnit with
  | false => simp
  | true => simp [Visit.blockTemplate?_of_asksForUnit hasks]

end Expansion

end Tapestry

import Tapestry.File.Library
import Tapestry.Proofs.FirstFit
import Tapestry.Proofs.ScopeChain
import Tapestry.Proofs.TypeSoundness

/-!
# Reserved cells

A statement that reserves a cell takes one that no variable in sight holds, be it hidden by
another or an argument that stands for it. Variables are only ever added to the innermost scope
of a point, and a scope is left before the ones around it change again. So the variables that
statements have reserved cells for, as far as they are in sight, all hold different cells.
-/

namespace Tapestry

namespace Visit

/-- Whether a visit calls the function that reserves cells. -/
def reservesCell (visit : Visit) : Bool :=
  visit.function.any fun function =>
    match function.action with
    | .register => true
    | _ => false

/-- A symbol installed in a scope stands behind the arguments of the visit that opened it. -/
theorem Opens.drop_append {visit : Visit} {scope : Scope} (h : visit.Opens scope) (symbol : Symbol) :
    (scope.symbols ++ [symbol]).drop visit.bindings.length =
      scope.symbols.drop visit.bindings.length ++ [symbol] := by
  refine List.drop_append_of_le_length ?_
  simpa using h.arguments.length_le

/-- A function installed in a scope reserves nothing. -/
theorem Opens.vars_of_grows {visit : Visit} {scope next : Scope} {f : Function}
    (h : visit.Opens scope) (hgrows : Scope.Grows (.func f) scope next) :
    (next.symbols.drop visit.bindings.length).filterMap Symbol.var? =
      (scope.symbols.drop visit.bindings.length).filterMap Symbol.var? := by
  rcases hgrows.symbols with hsame | hmore
  · rw [hsame]
  · rw [hmore, h.drop_append, List.filterMap_append]
    simp [Symbol.var?]

end Visit

namespace Expansion

/-- The variables in sight that statements have reserved cells for: those of each scope behind
the arguments of the visit that opened it. -/
def reserved : (around : List Visit) → Env → List Variable
  | [], _ => []
  | visit :: outer, env =>
    if visit.asksForUnit then reserved outer env
    else (env.scope.symbols.drop visit.bindings.length).filterMap Symbol.var? ++
      reserved outer env.outer

section Reserved

variable {around : List Visit} {visit : Visit} {env after : Env} {v : Variable}

/-- Without visits around there are no cells reserved. -/
@[simp]
theorem reserved_nil (env : Env) : reserved [] env = [] := rfl

/-- A visit that asks for a unit opens no scope, so it makes no difference. -/
theorem reserved_of_asksForUnit (h : visit.asksForUnit = true) (around : List Visit) (env : Env) :
    reserved (visit :: around) env = reserved around env := by
  rw [reserved, if_pos h]

/-- Any other visit opens a scope, whose cells are those behind its arguments. -/
theorem reserved_of_not_asksForUnit (h : visit.asksForUnit = false) (around : List Visit)
    (env : Env) :
    reserved (visit :: around) env =
      (env.scope.symbols.drop visit.bindings.length).filterMap Symbol.var? ++
        reserved around env.outer := by
  rw [reserved, if_neg (by simp [h])]

/-- Reserved variables are in sight. -/
theorem mem_vars_of_mem_reserved (h : v ∈ reserved around env) : v ∈ env.vars := by
  induction around generalizing env with
  | nil => cases h
  | cons visit outer ih =>
    cases hasks : visit.asksForUnit with
    | true => exact ih (reserved_of_asksForUnit hasks outer env ▸ h)
    | false =>
      rw [reserved_of_not_asksForUnit hasks] at h
      rw [Env.mem_vars_iff]
      rcases List.mem_append.mp h with hown | houter
      · obtain ⟨symbol, hsymbol, hvar⟩ := List.mem_filterMap.mp hown
        cases symbol with
        | func f => cases hvar
        | var w =>
          obtain rfl : w = v := Option.some.inj hvar
          exact Env.symbols_scope_subset env (List.mem_of_mem_drop hsymbol)
      · exact Env.symbols_outer_subset env (Env.mem_vars_iff.mp (ih houter))

/-- Nothing is reserved where no scope has an opener. -/
theorem reserved_of_scopeOwners_nil (h : scopeOwners around = []) (env : Env) :
    reserved around env = [] := by
  induction around with
  | nil => rfl
  | cons visit outer ih =>
    have hall := List.filter_eq_nil_iff.mp h
    have hasks : visit.asksForUnit = true := by simpa using hall visit List.mem_cons_self
    rw [reserved_of_asksForUnit hasks]
    exact ih (List.filter_eq_nil_iff.mpr fun other hother => hall other (List.mem_cons_of_mem _ hother))

/-- Nothing is reserved in a scope just entered. -/
theorem reserved_enter {scope : Scope} (hvisit : visit.asksForUnit = false)
    (hscope : scope.symbols = visit.bindings.map .var) (around : List Visit) (env : Env) :
    reserved (visit :: around) (.nested scope env) = reserved around env := by
  rw [reserved_of_not_asksForUnit hvisit]
  have hnone : scope.symbols.drop visit.bindings.length = [] :=
    List.drop_eq_nil_of_le (by simp [hscope])
  simp [Env.scope, Env.outer, hnone]

/-- A function installed anywhere reserves nothing. -/
theorem reserved_of_grows {f : Function} (h : env.OpenedBy (scopeOwners around))
    (hgrows : Env.Grows (.func f) env after) : reserved around after = reserved around env := by
  induction around generalizing env after with
  | nil => rfl
  | cons visit outer ih =>
    cases hasks : visit.asksForUnit with
    | true =>
      rw [scopeOwners_of_asksForUnit hasks] at h
      rw [reserved_of_asksForUnit hasks, reserved_of_asksForUnit hasks]
      exact ih h hgrows
    | false =>
      rw [scopeOwners_of_not_asksForUnit hasks] at h
      rw [reserved_of_not_asksForUnit hasks, reserved_of_not_asksForUnit hasks]
      generalize howners : scopeOwners outer = owners at h
      cases h with
      | root _ opens =>
        cases hgrows with
        | root scope_grows =>
          rw [reserved_of_scopeOwners_nil howners, reserved_of_scopeOwners_nil howners]
          exact congrArg (· ++ []) (opens.vars_of_grows scope_grows)
      | nested _ opens houter =>
        cases hgrows with
        | nested scope_grows outer_grows =>
          exact congrArg₂ _ (opens.vars_of_grows scope_grows) (ih (howners ▸ houter) outer_grows)

/-- A variable installed in the innermost scope is reserved besides the others. -/
theorem reserved_of_pushHere (h : env.OpenedBy (scopeOwners around))
    (hpush : Env.pushHere (.var v) env = .ok after) :
    (reserved around after).Perm (v :: reserved around env) := by
  induction around generalizing env after with
  | nil => cases h
  | cons visit outer ih =>
    cases hasks : visit.asksForUnit with
    | true =>
      rw [scopeOwners_of_asksForUnit hasks] at h
      rw [reserved_of_asksForUnit hasks, reserved_of_asksForUnit hasks]
      exact ih h hpush
    | false =>
      rw [scopeOwners_of_not_asksForUnit hasks] at h
      rw [reserved_of_not_asksForUnit hasks, reserved_of_not_asksForUnit hasks]
      -- The scope of the visit is the innermost one.
      have hmove (vars behind : List Variable) :
          ((vars ++ [v]) ++ behind).Perm (v :: (vars ++ behind)) := by
        rw [List.append_assoc]
        exact List.perm_middle
      generalize howners : scopeOwners outer = owners at h
      cases h with
      | root _ opens =>
        obtain ⟨next, hnext, rfl⟩ := exists_of_map_eq_ok hpush
        rw [reserved_of_scopeOwners_nil howners, reserved_of_scopeOwners_nil howners]
        rw [Env.scope, Env.scope, Scope.eq_of_push hnext, opens.drop_append, List.filterMap_append]
        exact hmove _ _
      | nested _ opens houter =>
        obtain ⟨next, hnext, rfl⟩ := exists_of_map_eq_ok hpush
        rw [Env.scope, Env.scope, Scope.eq_of_push hnext, opens.drop_append, List.filterMap_append]
        exact hmove _ _

end Reserved

/-! ## Steps -/

/-- What visiting an expression reserves, inside the visits around it. -/
def Step.Reserves (around : List Visit) (env : Env) : Step → Prop
  | .fail _ _ => True
  | .done visit after =>
    if visit.reservesCell then
      ∃ v cell, Bindings.identifier? visit.bindings "name" = some (v.name, v.value.token) ∧
        v.value.datum = .cell cell ∧ env.push (.var v) .here = .ok after ∧
          (∀ w ∈ env.vars, w.value.datum ≠ .cell cell) ∧
            (reserved around after).Perm (v :: reserved around env)
    else reserved around after = reserved around env
  | .enter visit scope _ _ => reserved (visit :: around) (.nested scope env) = reserved around env
  | .unit visit _ _ => reserved (visit :: around) env = reserved around env

/-- Whether a step is done with a visit of some kind. -/
def Step.finishes (p : Visit → Bool) : Step → Bool
  | .done visit _ => p visit
  | _ => false

/-- A step that finishes a visit is done with it. -/
theorem exists_done_of_finishes {p : Visit → Bool} {outcome : Step} (h : outcome.finishes p = true) :
    ∃ record after, outcome = .done record after ∧ p record = true := by
  cases outcome with
  | done record after => exact ⟨record, after, rfl, h⟩
  | fail | enter | unit => cases h

section Steps

variable {setup : Setup} {trail around : List Visit} {file : Text} {node : Node} {state : State}

/-- Only a statement that reserves a cell does, and the cell is one that no variable in sight
holds. -/
theorem reserves_of_stepAt (hsound : state.Sound) (hopened : state.env.OpenedBy (scopeOwners around)) :
    (stepAt setup trail file node state).Reserves around state.env := by
  cases hstep : stepAt setup trail file node state with
  | fail record fault => trivial
  | enter record scope body origin =>
    exact reserved_enter (asksForUnit_of_enter hstep) (symbols_of_enter hstep) around state.env
  | unit record name body => exact reserved_of_asksForUnit (asksForUnit_of_unit hstep) around state.env
  | done record after =>
    cases acts_of_stepAt hstep with
    | idle call missing =>
      exact absurd (Function.supplied_of_bind (call.sound hsound) hsound.vars call.bound) missing
    | emit call action | included call action =>
      rw [Step.Reserves, if_neg (by simp [Visit.reservesCell, called, action])]
    | register call action named pushed =>
      rw [Step.Reserves, if_pos (by simp [Visit.reservesCell, called, action])]
      exact ⟨⟨_, ⟨.cell _, _⟩⟩, _, named, rfl, pushed, fun w hw => Register.allocate_ne hw,
        reserved_of_pushHere hopened pushed⟩
    | define call action _ _ _ pushed =>
      rw [Step.Reserves, if_neg (by simp [Visit.reservesCell, called, action])]
      exact reserved_of_grows hopened (Env.grows_of_push pushed)

end Steps

/-- The variables in sight that statements have reserved cells for hold different cells, and
each was recorded with the visit of its statement. -/
structure ReservesDistinct (around : List Visit) (state : State) : Prop where
  distinct : (reserved around state.env).Pairwise fun v w => v.value.datum ≠ w.value.datum
  recorded : ∀ v ∈ reserved around state.env, ∃ visit ∈ state.visits, visit.reservesCell = true ∧
    Bindings.identifier? visit.bindings "name" = some (v.name, v.value.token) ∧
      ∃ cell, v.value.datum = .cell cell

namespace ReservesDistinct

variable {around inner : List Visit} {state after : State}

/-- Fewer variables in sight are distinct too. -/
theorem of_sublist (h : ReservesDistinct inner after)
    (hsublist : (reserved around state.env).Sublist (reserved inner after.env))
    (hvisits : ∀ visit ∈ after.visits, visit ∈ state.visits) : ReservesDistinct around state where
  distinct := h.distinct.sublist hsublist
  recorded v hv := by
    obtain ⟨visit, hvisit, hrecorded⟩ := h.recorded v (hsublist.subset hv)
    exact ⟨visit, hvisits visit hvisit, hrecorded⟩

/-- A cell that no variable in sight holds may be reserved. -/
theorem reserve {record : Visit} {env : Env} (h : ReservesDistinct around state)
    (hstep : (Step.done record env).Reserves around state.env) :
    ReservesDistinct around { state.record record with env } := by
  rw [Step.Reserves] at hstep
  split at hstep
  case isTrue hreserves =>
    obtain ⟨v, cell, hname, hcell, _, hfresh, hperm⟩ := hstep
    have hsymm {v w : Variable} (hne : v.value.datum ≠ w.value.datum) :
        w.value.datum ≠ v.value.datum := hne.symm
    constructor
    · refine (hperm.pairwise_iff hsymm).mpr (List.pairwise_cons.mpr ⟨fun w hw => ?_, h.distinct⟩)
      rw [hcell]
      exact (hfresh w (mem_vars_of_mem_reserved hw)).symm
    · intro w hw
      rcases List.mem_cons.mp (hperm.subset hw) with rfl | hold
      · exact ⟨record, List.mem_cons_self, hreserves, hname, cell, hcell⟩
      · obtain ⟨visit, hvisit, hrecorded⟩ := h.recorded w hold
        exact ⟨visit, List.mem_cons_of_mem _ hvisit, hrecorded⟩
  case isFalse =>
    refine h.of_sublist ?_ fun visit hvisit => List.mem_cons_of_mem _ hvisit
    exact hstep ▸ List.Sublist.refl _

end ReservesDistinct

/-- A sound state whose scopes were opened by the visits around a point and a root. -/
def SoundlyOpened (root : Visit) (trail : List Visit) (_ : Text) (state : State) : Prop :=
  state.Sound ∧ state.env.OpenedBy (scopeOwners (trail ++ [root]))

/-- Steps keep states sound and their scopes opened by the visits around. -/
theorem soundlyOpened_kept (setup : Setup) (root : Visit) :
    Kept setup (SoundlyOpened root) (fun _ _ => True) :=
  (sound_kept setup).and (openedBy_kept setup root)

/-- What statements reserve is kept distinct. A scope that reserved cells is left before the
scopes around it reserve again, so leaving it only takes variables out of sight. -/
theorem reservesDistinct_kept (setup : Setup) (root : Visit) :
    Kept setup (fun trail file state => SoundlyOpened root trail file state ∧
        ReservesDistinct (trail ++ [root]) state)
      (fun _ _ => True) where
  done := by
    rintro trail file node state record env ⟨hstate, hdistinct⟩ _ hstep
    refine ⟨(soundlyOpened_kept setup root).done hstate trivial hstep, hdistinct.reserve ?_⟩
    exact hstep ▸ reserves_of_stepAt hstate.1 hstate.2
  enter := by
    rintro trail file node state record scope body origin ⟨hstate, hdistinct⟩ _ hstep
    have hinside := ((soundlyOpened_kept setup root).enter hstate trivial hstep).1
    refine ⟨⟨hinside, hdistinct.of_sublist ?_ ?_⟩, fun _ _ => trivial⟩
    · rw [List.cons_append, State.enter,
        reserved_enter (asksForUnit_of_enter hstep) (symbols_of_enter hstep)]
      exact List.Sublist.refl _
    · exact fun visit hvisit => List.mem_cons_of_mem _ hvisit
  leave := by
    rintro trail file node state record scope body origin after ⟨hstate, _⟩ _ hstep
      ⟨hafter, hdistinct⟩
    refine ⟨(soundlyOpened_kept setup root).leave hstate trivial hstep hafter,
      hdistinct.of_sublist ?_ fun _ => id⟩
    rw [List.cons_append, reserved_of_not_asksForUnit (asksForUnit_of_enter hstep)]
    exact List.sublist_append_right _ _
  unit := by
    rintro trail file node state record name body ⟨hstate, hdistinct⟩ _ hstep
    have hinside := ((soundlyOpened_kept setup root).unit hstate trivial hstep).1
    refine ⟨⟨hinside, hdistinct.of_sublist ?_ ?_⟩, fun _ _ => trivial⟩
    · rw [List.cons_append, reserved_of_asksForUnit (asksForUnit_of_unit hstep)]
      exact List.Sublist.refl _
    · exact fun visit hvisit => List.mem_cons_of_mem _ hvisit
  endUnit := by
    rintro trail file node state record name body after ⟨hstate, _⟩ _ hstep ⟨hafter, hdistinct⟩
    refine ⟨(soundlyOpened_kept setup root).endUnit hstate trivial hstep hafter,
      hdistinct.of_sublist ?_ fun _ => id⟩
    rw [List.cons_append, reserved_of_asksForUnit (asksForUnit_of_unit hstep)]
    exact List.Sublist.refl _

/-- Before the first expression nothing is reserved. -/
theorem reservesDistinct_initial (name : Text) (body : List Node) :
    ReservesDistinct [Visit.root name body] (.initial name body) := by
  have hnone : reserved [Visit.root name body] (State.initial name body).env = [] := by
    have hvars : Scope.initial.symbols.filterMap Symbol.var? = [] := by
      rw [List.filterMap_eq_nil_iff]
      intro symbol hsymbol
      obtain ⟨f, _, rfl⟩ := List.mem_map.mp hsymbol
      rfl
    rw [reserved_of_not_asksForUnit rfl, reserved_nil, List.append_nil]
    exact hvars
  exact ⟨by simp [hnone], by simp [hnone]⟩

/-- Whatever the program, the units it asks for and the limit on its depth: at every point of the
expansion the variables in sight that statements have reserved cells for hold different cells. A
statement that reserves a cell there binds one that no variable in sight holds, hidden ones and
arguments included, and no other step changes which cells are reserved. -/
theorem reserved_cells_distinct (setup : Setup) (name : Text) (body : List Node) :
    ∀ frame, Reached setup name body frame →
      ReservesDistinct (frame.trail ++ [Visit.root name body]) frame.state ∧
        ∀ node rest, frame.nodes = node :: rest →
          (stepAt setup frame.trail frame.file node frame.state).Reserves
            (frame.trail ++ [Visit.root name body]) frame.state.env := by
  intro frame hreached
  obtain ⟨hstate, hdistinct⟩ :=
    ((reservesDistinct_kept setup (Visit.root name body)).reached
      ⟨⟨sound_initial name body, openedBy_initial name body⟩, reservesDistinct_initial name body⟩
      (fun _ _ => trivial) hreached).1
  exact ⟨hdistinct, fun _ _ _ => reserves_of_stepAt hstate.1 hstate.2⟩

/-- A unit that reserves a cell. -/
def reserving : Library := ⟨[("cells", "reg u\n")]⟩

/-- A source that reserves cells beside an argument, in a spliced block, in a unit, and under a
name that is in sight already. -/
def crowding : Text :=
  Text.ofString "reg x\nmacroblock global crowd address y\n    reg t\n    code\n" ++
    "crowd x\n    import 'cells'\n    reg x\n"

/-- Behind the unit asked for in the block, three cells are reserved and the argument stands for
one of them; the last statement takes a fourth. -/
theorem reserved_cells_distinct_crowding :
    ∃ body frame node rest record after v, Source.parse crowding = .ok body ∧
      Reached ⟨reserving.loader, 8⟩ "main" body frame ∧ frame.nodes = node :: rest ∧
        frame.state.env.vars.map Variable.name =
            [Text.ofString "u", Text.ofString "y", Text.ofString "t", Text.ofString "x"] ∧
          (reserved (frame.trail ++ [Visit.root "main" body]) frame.state.env).map Variable.name =
              [Text.ofString "u", Text.ofString "t", Text.ofString "x"] ∧
            (reserved (frame.trail ++ [Visit.root "main" body]) frame.state.env).Pairwise
                (fun v w => v.value.datum ≠ w.value.datum) ∧
              stepAt ⟨reserving.loader, 8⟩ frame.trail frame.file node frame.state =
                  .done record after ∧
                frame.state.env.push (.var v) .here = .ok after ∧
                  ∀ w ∈ frame.state.env.vars, w.value.datum ≠ v.value.datum := by
  have hfacts : (Source.parse crowding).toOption.bind (fun body =>
      ((Frame.initial ⟨reserving.loader, 8⟩ "main" body).follow ⟨reserving.loader, 8⟩
        [.past, .past, .into, .past, .into, .past]).map fun frame =>
          (frame.state.env.vars.map Variable.name,
            (reserved (frame.trail ++ [Visit.root "main" body]) frame.state.env).map Variable.name,
            frame.nodes.map fun node => (stepAt ⟨reserving.loader, 8⟩ frame.trail frame.file node
              frame.state).finishes Visit.reservesCell)) =
      some ([Text.ofString "u", Text.ofString "y", Text.ofString "t", Text.ofString "x"],
        [Text.ofString "u", Text.ofString "t", Text.ofString "x"], [true]) := by decide +kernel
  obtain ⟨body, hparse, hfacts⟩ := Option.bind_eq_some_iff.mp hfacts
  obtain ⟨frame, hfollow, hfacts⟩ := Option.map_eq_some_iff.mp hfacts
  simp only [Prod.mk.injEq] at hfacts
  obtain ⟨hvars, hreserved, hstep⟩ := hfacts
  obtain ⟨node, rest, hnodes, hlast, _⟩ := List.map_eq_cons_iff.mp hstep
  obtain ⟨record, after, hdone, hreserves⟩ := exists_done_of_finishes hlast
  have hreached := reached_of_follow hfollow
  obtain ⟨hdistinct, hsteps⟩ := reserved_cells_distinct _ "main" body frame hreached
  have hfresh := hsteps node rest hnodes
  rw [hdone, Step.Reserves, if_pos hreserves] at hfresh
  obtain ⟨v, cell, _, hcell, hpush, hcells, _⟩ := hfresh
  exact ⟨body, frame, node, rest, record, after, v, eq_ok_of_toOption hparse, hreached, hnodes, hvars,
    hreserved, hdistinct.distinct, hdone, hpush, hcell ▸ hcells⟩

end Expansion

end Tapestry

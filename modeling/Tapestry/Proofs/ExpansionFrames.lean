import Mathlib.Logic.Relation
import Tapestry.Expansion.Run
import Tapestry.Proofs.ExpansionStep

/-!
# The points of an expansion

An expansion passes through points: a list of expressions still to be visited at one level, in
the state reached so far. From a point it goes on to the rest of the list, once the first
expression has been visited, or down into the body the first expression leads to.

What every step keeps holds at every point reached, and every visit ever recorded was recorded
by the step of the first expression at some point reached.
-/

namespace Tapestry

/-- The visits around a failure are those that have been noted. -/
theorem Error.trail_of_context (error : Error) {chain : List Visit} (h : error.context = some chain) :
    error.trail = chain := by
  rw [trail, h, Option.getD_some]

namespace Expansion

variable {progress : Progress} {setup : Setup}

/-- The state an expansion has come to, whether it goes on or not. -/
def Progress.state : Progress → State
  | .ready state | .stopped state _ => state

/-- The state of an expansion that goes on. -/
def Progress.ready? : Progress → Option State
  | .ready state => some state
  | .stopped _ _ => none

/-- An expansion with a state to go on from is ready. -/
theorem Progress.eq_ready_of_ready? {state : State} (h : progress.ready? = some state) :
    progress = .ready state := by
  cases progress with
  | ready last => exact congrArg Progress.ready (Option.some.inj h)
  | stopped last error => cases h

/-- The step of an expression inside the visits of a trail. -/
def stepAt (setup : Setup) (trail : List Visit) (file : Text) (node : Node) (state : State) : Step :=
  step setup.loader state (Visit.start trail node file state.env)

/-- A step at a point leads to one of the listed cases. -/
theorem acts_of_stepAt {trail : List Visit} {file : Text} {node : Node} {state : State}
    {outcome : Step} (h : stepAt setup trail file node state = outcome) :
    Acts setup.loader state (Visit.start trail node file state.env) outcome :=
  h ▸ step_acts _ _ _

/-! ## The places of errors -/

/-- An error that has been noted somewhere stays noted there. -/
theorem noteAt_eq_self {error : Error} (h : error.context.isSome = true) (chain : List Visit) :
    error.noteAt chain = error := by
  obtain ⟨failure, context⟩ := error
  cases context with
  | none => cases h
  | some noted => rfl

/-- The place noted first is the one that is kept. -/
theorem noteAt_noteAt (error : Error) (inner outer : List Visit) :
    (error.noteAt inner).noteAt outer = error.noteAt inner := by
  refine noteAt_eq_self ?_ outer
  obtain ⟨failure, context⟩ := error
  cases context <;> rfl

/-- A fault is noted at the visit that fails. -/
@[simp]
theorem failAt_eq (trail : List Visit) (state : State) (visit : Visit) (fault : Fault) :
    failAt trail state visit fault =
      .stopped (state.record visit) ⟨.fault fault, some (visit :: trail)⟩ := rfl

/-- If an expansion has stopped, the place of its error has been noted. -/
def Progress.Noted : Progress → Prop
  | .ready _ => True
  | .stopped _ error => error.context.isSome = true

/-- Noting places changes nothing once they have all been noted. -/
theorem Progress.Noted.noteAt_eq (h : progress.Noted) (chain : List Visit) :
    progress.noteAt chain = progress := by
  cases progress with
  | ready state => rfl
  | stopped state error => exact congrArg (Progress.stopped state) (noteAt_eq_self h chain)

/-- Changing a state that is ready notes nothing. -/
theorem Progress.Noted.mapReady (h : progress.Noted) (f : State → State) :
    (progress.mapReady f).Noted := by
  cases progress with
  | ready state => trivial
  | stopped state error => exact h

/-- Once a place is offered, it is noted, unless another was. -/
theorem noted_noteAt (progress : Progress) (chain : List Visit) : (progress.noteAt chain).Noted := by
  cases progress with
  | ready state => trivial
  | stopped state error =>
    obtain ⟨failure, context⟩ := error
    cases context <;> rfl

/-- The places of errors are noted in a list, if they are in each expression. -/
theorem noted_visitAll {run : Node → State → Progress} (h : ∀ node state, (run node state).Noted)
    (nodes : List Node) (state : State) : (visitAll run nodes state).Noted := by
  induction nodes generalizing state with
  | nil => trivial
  | cons node rest ih =>
    have hfirst := h node state
    rw [visitAll]
    cases hrun : run node state with
    | ready middle => exact ih middle
    | stopped middle error =>
      rw [hrun] at hfirst
      exact hfirst

/-- The place of an error has been noted when it comes out of a visit. -/
theorem noted_visit (setup : Setup) (levels : Nat) (trail : List Visit) (file : Text) (node : Node)
    (state : State) : (visit setup levels trail file node state).Noted := by
  induction levels generalizing trail file node state with
  | zero => rfl
  | succ levels ih =>
    rw [visit]
    split
    · rfl
    · trivial
    · exact (noted_visitAll (ih _ _) _ _).mapReady _
    · exact noted_noteAt _ _

/-- A visit with a level to enter goes where its step leads. The statement that asks for a unit adds
nothing to an error from inside the unit, whose place has been noted there. -/
theorem visit_succ (setup : Setup) (levels : Nat) (trail : List Visit) (file : Text) (node : Node)
    (state : State) :
    visit setup (levels + 1) trail file node state =
      match stepAt setup trail file node state with
      | .fail record fault => .stopped (state.record record) ⟨.fault fault, some (record :: trail)⟩
      | .done record env => .ready { state.record record with env }
      | .enter record scope body origin =>
        (visitAll (visit setup levels (record :: trail) origin) body
          ((state.record record).enter scope)).mapReady State.leave
      | .unit record name body =>
        (visitAll (visit setup levels (record :: trail) name) body
          ((state.record record).beginUnit name)).mapReady State.endUnit := by
  rw [visit, stepAt]
  cases step setup.loader state (.start trail node file state.env) with
  | fail record fault => rfl
  | done record env => rfl
  | enter record scope body origin => rfl
  | unit record name body =>
    exact ((noted_visitAll (noted_visit setup levels _ _) _ _).mapReady State.endUnit).noteAt_eq _

/-- A point of an expansion. -/
structure Frame where
  /-- The number of levels that may still be entered. -/
  levels : Nat
  /-- The visits around the point, innermost first. -/
  trail : List Visit
  /-- The unit the expressions were written in. -/
  file : Text
  /-- The expressions still to be visited. -/
  nodes : List Node
  state : State

/-- The point before the first expression of a program. -/
def Frame.initial (setup : Setup) (name : Text) (body : List Node) : Frame :=
  ⟨setup.limit, [], name, body, .initial name body⟩

/-- At first there is nothing but built-in functions. -/
theorem exists_builtin_of_initial {name : Text} {body : List Node} {symbol : Symbol}
    (h : symbol ∈ (State.initial name body).env.symbols) :
    ∃ f ∈ Function.builtins, symbol = .func f := by
  rw [State.initial, Env.symbols_root] at h
  obtain ⟨f, hf, rfl⟩ := List.mem_map.mp h
  exact ⟨f, hf, rfl⟩

/-- Where an expansion goes from a point. -/
inductive Leads (setup : Setup) : Frame → Frame → Prop where
  /-- On to the rest of the list. -/
  | next {levels trail file node rest state after}
      (visited : visit setup levels trail file node state = .ready after) :
    Leads setup ⟨levels, trail, file, node :: rest, state⟩ ⟨levels, trail, file, rest, after⟩
  /-- Into a body in a scope of its own. -/
  | enter {levels trail file node rest state record scope body origin}
      (entered : stepAt setup trail file node state = .enter record scope body origin) :
    Leads setup ⟨levels + 1, trail, file, node :: rest, state⟩
      ⟨levels, record :: trail, origin, body, (state.record record).enter scope⟩
  /-- Into a unit. -/
  | unit {levels trail file node rest state record name body}
      (begun : stepAt setup trail file node state = .unit record name body) :
    Leads setup ⟨levels + 1, trail, file, node :: rest, state⟩
      ⟨levels, record :: trail, name, body, (state.record record).beginUnit name⟩

/-- The points that the expansion of a program passes through. -/
def Reached (setup : Setup) (name : Text) (body : List Node) : Frame → Prop :=
  Relation.ReflTransGen (Leads setup) (Frame.initial setup name body)

/-- The two ways on from a point: past its first expression, or into its body. -/
inductive Move where
  | past
  | into

/-- The point that a move leads to. -/
def Frame.move (setup : Setup) (frame : Frame) : Move → Option Frame
  | .past =>
    match frame.nodes with
    | [] => none
    | node :: rest =>
      match visit setup frame.levels frame.trail frame.file node frame.state with
      | .ready after => some { frame with nodes := rest, state := after }
      | .stopped _ _ => none
  | .into =>
    match frame.levels, frame.nodes with
    | levels + 1, node :: _ =>
      match stepAt setup frame.trail frame.file node frame.state with
      | .enter record scope body origin =>
        some ⟨levels, record :: frame.trail, origin, body, (frame.state.record record).enter scope⟩
      | .unit record name body =>
        some ⟨levels, record :: frame.trail, name, body, (frame.state.record record).beginUnit name⟩
      | _ => none
    | _, _ => none

/-- The point that moves lead to, one after the other. -/
def Frame.follow (setup : Setup) (frame : Frame) (moves : List Move) : Option Frame :=
  moves.foldlM (Frame.move setup) frame

/-- An expansion makes the moves that a point has. -/
theorem leads_of_move {frame after : Frame} {move : Move} (h : frame.move setup move = some after) :
    Leads setup frame after := by
  obtain ⟨levels, trail, file, nodes, state⟩ := frame
  cases move with
  | past =>
    cases nodes with
    | nil => cases h
    | cons node rest =>
      simp only [Frame.move] at h
      split at h
      case h_1 last hvisit =>
        cases h
        exact .next hvisit
      case h_2 => cases h
  | into =>
    cases levels with
    | zero => cases h
    | succ levels =>
      cases nodes with
      | nil => cases h
      | cons node rest =>
        simp only [Frame.move] at h
        split at h
        case h_1 hstep =>
          cases h
          exact .enter hstep
        case h_2 hstep =>
          cases h
          exact .unit hstep
        case h_3 => cases h

/-- Points found by moves are reached. -/
theorem reached_of_follow {name : Text} {body : List Node} {frame : Frame} {moves : List Move}
    (h : (Frame.initial setup name body).follow setup moves = some frame) :
    Reached setup name body frame := by
  have hmoves (moves : List Move) (before : Frame) (hbefore : Reached setup name body before)
      (hfollow : before.follow setup moves = some frame) : Reached setup name body frame := by
    induction moves generalizing before with
    | nil =>
      obtain rfl : before = frame := Option.some.inj hfollow
      exact hbefore
    | cons move rest ih =>
      obtain ⟨middle, hmiddle, hrest⟩ := Option.bind_eq_some_iff.mp hfollow
      exact ih middle (hbefore.tail (leads_of_move hmiddle)) hrest
  exact hmoves moves _ .refl h

/-! ## Invariants -/

/-- A property of states inside a trail and a unit, and one of expressions in a unit, that steps
keep. -/
structure Kept (setup : Setup) (P : List Visit → Text → State → Prop) (Q : Text → Node → Prop) :
    Prop where
  /-- A finished visit keeps the property. -/
  done : ∀ {trail file node state record env}, P trail file state → Q file node →
    stepAt setup trail file node state = .done record env →
      P trail file { state.record record with env }
  /-- The property holds in a scope entered. -/
  enter : ∀ {trail file node state record scope body origin}, P trail file state → Q file node →
    stepAt setup trail file node state = .enter record scope body origin →
      P (record :: trail) origin ((state.record record).enter scope) ∧
        ∀ child ∈ body, Q origin child
  /-- The property holds again when the scope is left. -/
  leave : ∀ {trail file node state record scope body origin after}, P trail file state →
    Q file node → stepAt setup trail file node state = .enter record scope body origin →
      P (record :: trail) origin after → P trail file after.leave
  /-- The property holds in a unit begun. -/
  unit : ∀ {trail file node state record name body}, P trail file state → Q file node →
    stepAt setup trail file node state = .unit record name body →
      P (record :: trail) name ((state.record record).beginUnit name) ∧
        ∀ child ∈ body, Q name child
  /-- The property holds again when the unit is ended. -/
  endUnit : ∀ {trail file node state record name body after}, P trail file state → Q file node →
    stepAt setup trail file node state = .unit record name body →
      P (record :: trail) name after → P trail file after.endUnit

section Invariants

variable {setup : Setup} {P : List Visit → Text → State → Prop} {Q : Text → Node → Prop}
  {after state : State}

/-- Two properties that steps keep are kept together. -/
theorem Kept.and {P' : List Visit → Text → State → Prop} (kept : Kept setup P Q)
    (kept' : Kept setup P' Q) :
    Kept setup (fun trail file state => P trail file state ∧ P' trail file state) Q where
  done h hnode hstep := ⟨kept.done h.1 hnode hstep, kept'.done h.2 hnode hstep⟩
  enter h hnode hstep :=
    ⟨⟨(kept.enter h.1 hnode hstep).1, (kept'.enter h.2 hnode hstep).1⟩, (kept.enter h.1 hnode hstep).2⟩
  leave h hnode hstep hafter :=
    ⟨kept.leave h.1 hnode hstep hafter.1, kept'.leave h.2 hnode hstep hafter.2⟩
  unit h hnode hstep :=
    ⟨⟨(kept.unit h.1 hnode hstep).1, (kept'.unit h.2 hnode hstep).1⟩, (kept.unit h.1 hnode hstep).2⟩
  endUnit h hnode hstep hafter :=
    ⟨kept.endUnit h.1 hnode hstep hafter.1, kept'.endUnit h.2 hnode hstep hafter.2⟩

/-- What each visit of a list keeps, visiting the whole list keeps. -/
theorem visitAll_keeps {run : Node → State → Progress} {P : State → Prop} {nodes : List Node}
    (hrun : ∀ node ∈ nodes, ∀ state after, P state → run node state = .ready after → P after)
    (hstate : P state) (h : visitAll run nodes state = .ready after) :
    P after := by
  induction nodes generalizing state with
  | nil =>
    obtain rfl : state = after := Progress.ready.inj h
    exact hstate
  | cons node rest ih =>
    cases hfirst : run node state with
    | stopped middle error => simp [visitAll, hfirst, Progress.andThen] at h
    | ready middle =>
      simp only [visitAll, hfirst, Progress.andThen] at h
      have hmiddle : P middle := hrun node (by simp) state middle hstate hfirst
      exact ih (fun other hother => hrun other (by simp [hother])) hmiddle h

/-- Two ways of visiting go through a list alike, if they visit alike where the first does well, and
a list goes well only if its first expression does. -/
theorem visitAll_congr {run other : Node → State → Progress} (good : Progress → Prop)
    (hfirst : ∀ node rest state, good (visitAll run (node :: rest) state) → good (run node state))
    (hrun : ∀ node state, good (run node state) → other node state = run node state)
    {nodes : List Node} (h : good (visitAll run nodes state)) :
    visitAll other nodes state = visitAll run nodes state := by
  induction nodes generalizing state with
  | nil => rfl
  | cons node rest ih =>
    rw [visitAll, visitAll, hrun node state (hfirst node rest state h)]
    cases hnode : run node state with
    | stopped last error => rfl
    | ready middle =>
      apply ih
      rwa [visitAll, hnode] at h

/-- Only a state that is ready is changed. -/
theorem exists_of_mapReady {f : State → State} {progress : Progress}
    (h : progress.mapReady f = .ready after) :
    ∃ state, progress = .ready state ∧ f state = after := by
  cases progress with
  | ready state => exact ⟨state, rfl, Progress.ready.inj h⟩
  | stopped state error => cases h

/-- A visit with everything below it keeps what steps keep. -/
theorem Kept.visit (kept : Kept setup P Q) {levels : Nat} {trail : List Visit} {file : Text}
    {node : Node} (hstate : P trail file state) (hnode : Q file node)
    (h : visit setup levels trail file node state = .ready after) : P trail file after := by
  induction levels generalizing trail file node state after with
  | zero => cases h
  | succ levels ih =>
    rw [visit_succ] at h
    cases hstep : stepAt setup trail file node state with
    | fail record fault => simp [hstep] at h
    | done record env =>
      obtain rfl : { state.record record with env } = after := by simpa [hstep] using h
      exact kept.done hstate hnode hstep
    | enter record scope body origin =>
      simp only [hstep] at h
      obtain ⟨last, hlast, rfl⟩ := exists_of_mapReady h
      obtain ⟨hinside, hbody⟩ := kept.enter hstate hnode hstep
      refine kept.leave hstate hnode hstep (visitAll_keeps ?_ hinside hlast)
      exact fun child hchild _ _ hbefore hvisit => ih hbefore (hbody child hchild) hvisit
    | unit record name body =>
      simp only [hstep] at h
      obtain ⟨last, hlast, rfl⟩ := exists_of_mapReady h
      obtain ⟨hinside, hbody⟩ := kept.unit hstate hnode hstep
      refine kept.endUnit hstate hnode hstep (visitAll_keeps ?_ hinside hlast)
      exact fun child hchild _ _ hbefore hvisit => ih hbefore (hbody child hchild) hvisit

/-- What steps keep holds at every point reached. -/
theorem Kept.reached (kept : Kept setup P Q) {name : Text} {body : List Node} {frame : Frame}
    (hinitial : P [] name (.initial name body)) (hbody : ∀ node ∈ body, Q name node)
    (h : Reached setup name body frame) :
    P frame.trail frame.file frame.state ∧ ∀ node ∈ frame.nodes, Q frame.file node := by
  induction h with
  | refl => exact ⟨hinitial, hbody⟩
  | tail _ hleads ih =>
    obtain ⟨hstate, hnodes⟩ := ih
    cases hleads with
    | next hvisit =>
      exact ⟨kept.visit hstate (hnodes _ (by simp)) hvisit, fun node hnode =>
        hnodes node (by simp [hnode])⟩
    | enter hstep => exact kept.enter hstate (hnodes _ (by simp)) hstep
    | unit hstep => exact kept.unit hstate (hnodes _ (by simp)) hstep

end Invariants

/-! ## Symbols -/

/-- A property of symbols that installations keep: if every symbol in sight has it, so has every
symbol that a statement installs. -/
structure SymbolsKept (S : Symbol → Prop) : Prop where
  /-- A reserved cell has the property. -/
  register : ∀ {env node function bindings name token}, (∀ symbol ∈ env.symbols, S symbol) →
    Calls env node function bindings → function.action = .register →
      Bindings.identifier? bindings "name" = some (name, token) →
        S (.var ⟨name, ⟨.cell (Register.allocate env.vars), token⟩⟩)
  /-- A defined template has the property. -/
  define : ∀ {env visit function bindings wantsBlock lifetime name token template},
    (∀ symbol ∈ env.symbols, S symbol) → Calls env visit.node function bindings →
      function.action = .define wantsBlock →
        Bindings.lifetime? bindings "lifetime" = some lifetime →
          Bindings.identifier? bindings "name" = some (name, token) →
            definedFunction wantsBlock (called env visit function bindings) name token lifetime =
              .ok template → S (.func template)
  /-- The arguments of a template have the property. -/
  argument : ∀ {env node function bindings}, (∀ symbol ∈ env.symbols, S symbol) →
    Calls env node function bindings → function.isBuiltin = false → ∀ v ∈ bindings, S (.var v)

namespace SymbolsKept

variable {S : Symbol → Prop}

/-- What installations keep, steps keep. -/
theorem kept (h : SymbolsKept S) (setup : Setup) :
    Kept setup (fun _ _ state => ∀ symbol ∈ state.env.symbols, S symbol) (fun _ _ => True) where
  done := by
    intro trail file node state record env hstate _ hstep
    have hadds {symbol : Symbol} (hadds : Env.Adds symbol state.env env) (hsymbol : S symbol) :
        ∀ other ∈ env.symbols, S other := by
      intro other hother
      rcases (hadds.mem_symbols other).mp hother with rfl | hold
      · exact hsymbol
      · exact hstate other hold
    cases acts_of_stepAt hstep with
    | idle | emit | included => exact hstate
    | register call action named pushed =>
      exact hadds (Env.adds_of_push pushed) (h.register hstate call action named)
    | define call action lasting named defined pushed =>
      exact hadds (Env.adds_of_push pushed) (h.define hstate call action lasting named defined)
  enter := by
    intro trail file node state record scope body origin hstate _ hstep
    have hscope : ∀ symbol ∈ scope.symbols, S symbol := by
      cases acts_of_stepAt hstep with
      | splice => exact fun _ hsymbol => absurd hsymbol List.not_mem_nil
      | template call action pushed | blockTemplate call action pushed =>
        intro symbol hsymbol
        obtain ⟨v, hv, rfl⟩ := Scope.exists_var_of_pushAll rfl pushed symbol hsymbol
        exact h.argument hstate call (by simp [Function.isBuiltin, action]) v hv
    refine ⟨fun symbol hsymbol => ?_, fun _ _ => trivial⟩
    rcases List.mem_append.mp (Env.symbols_nested scope state.env ▸ hsymbol) with hinner | houter
    · exact hscope symbol hinner
    · exact hstate symbol houter
  leave := fun _ _ _ hafter symbol hsymbol => hafter symbol (Env.symbols_outer_subset _ hsymbol)
  unit := fun hstate _ _ => ⟨hstate, fun _ _ => trivial⟩
  endUnit := fun _ _ _ hafter => hafter

/-- What installations keep and built-in functions have, every symbol in sight of a point reached
has. -/
theorem of_reached (h : SymbolsKept S) (hbuiltins : ∀ f ∈ Function.builtins, S (.func f))
    {setup : Setup} {name : Text} {body : List Node} {frame : Frame}
    (hreached : Reached setup name body frame) : ∀ symbol ∈ frame.state.env.symbols, S symbol := by
  refine ((h.kept setup).reached (fun symbol hsymbol => ?_) (fun _ _ => trivial) hreached).1
  obtain ⟨f, hf, rfl⟩ := exists_builtin_of_initial hsymbol
  exact hbuiltins f hf

end SymbolsKept

/-! ## Relations -/

/-- A relation between the states before and after an expression that steps keep. -/
structure Spans (setup : Setup) (R : State → State → Prop) : Prop where
  refl : ∀ state, R state state
  trans : ∀ {before middle after}, R before middle → R middle after → R before after
  /-- A finished visit keeps the relation. -/
  done : ∀ {trail file node state record env},
    stepAt setup trail file node state = .done record env → R state { state.record record with env }
  /-- What a body does inside its scope relates the states around it. -/
  leave : ∀ {trail file node state record scope body origin after},
    stepAt setup trail file node state = .enter record scope body origin →
      R ((state.record record).enter scope) after → R state after.leave
  /-- What a unit does relates the states around it. -/
  endUnit : ∀ {trail file node state record name body after},
    stepAt setup trail file node state = .unit record name body →
      R ((state.record record).beginUnit name) after → R state after.endUnit

section Relations

variable {setup : Setup} {R : State → State → Prop} {levels : Nat} {trail : List Visit}
  {file : Text} {state after : State}

/-- Going through expressions relates the states before and after, if each of them does. -/
theorem Spans.visitAll (spans : Spans setup R)
    (hvisit : ∀ node before next, visit setup levels trail file node before = .ready next →
      R before next)
    {nodes : List Node} (h : visitAll (visit setup levels trail file) nodes state = .ready after) :
    R state after := by
  refine visitAll_keeps (fun node _ before next hbefore hnext => ?_) (spans.refl state) h
  exact spans.trans hbefore (hvisit node before next hnext)

/-- A visit with everything below it relates the states before and after. -/
theorem Spans.visit (spans : Spans setup R) {node : Node}
    (h : visit setup levels trail file node state = .ready after) : R state after := by
  induction levels generalizing trail file node state after with
  | zero => cases h
  | succ levels ih =>
    rw [visit_succ] at h
    cases hstep : stepAt setup trail file node state with
    | fail record fault => simp [hstep] at h
    | done record env =>
      obtain rfl : { state.record record with env } = after := by simpa [hstep] using h
      exact spans.done hstep
    | enter record scope body origin =>
      simp only [hstep] at h
      obtain ⟨last, hlast, rfl⟩ := exists_of_mapReady h
      exact spans.leave hstep (spans.visitAll (fun _ _ _ => ih) hlast)
    | unit record name body =>
      simp only [hstep] at h
      obtain ⟨last, hlast, rfl⟩ := exists_of_mapReady h
      exact spans.endUnit hstep (spans.visitAll (fun _ _ _ => ih) hlast)

end Relations

/-! ## Recorded visits -/

/-- The visit recorded first at a point. -/
inductive Frame.Records (setup : Setup) : Frame → Visit → Prop where
  /-- No level is left to enter. -/
  | tooDeep {trail file node rest state} :
    Records setup ⟨0, trail, file, node :: rest, state⟩
      (Visit.start trail node file state.env)
  | step {levels trail file node rest state} :
    Records setup ⟨levels + 1, trail, file, node :: rest, state⟩
      (stepAt setup trail file node state).record

/-- A visit is recorded at a point that a point leads to. -/
def Frame.RecordsBelow (setup : Setup) (frame : Frame) (record : Visit) : Prop :=
  ∃ below, Relation.ReflTransGen (Leads setup) frame below ∧ below.Records setup record

/-- Why the first expression at a point cannot be visited. -/
inductive Frame.Fails (setup : Setup) : Frame → Failure → Prop where
  /-- No level is left to enter. -/
  | tooDeep {trail file node rest state} :
    Fails setup ⟨0, trail, file, node :: rest, state⟩ (.fault (Expansion.tooDeep setup.limit node))
  | step {levels trail file node rest state record fault}
      (failed : stepAt setup trail file node state = .fail record fault) :
    Fails setup ⟨levels + 1, trail, file, node :: rest, state⟩ (.fault fault)

/-- An expansion stops at a point that a point leads to, with the visits around that point. -/
def Frame.StopsBelow (setup : Setup) (frame : Frame) (last : State) (error : Error) : Prop :=
  ∃ below record, Relation.ReflTransGen (Leads setup) frame below ∧ below.Records setup record ∧
    last = below.state.record record ∧ error.context = some (record :: below.trail) ∧
      below.Fails setup error.failure

section Records

variable {setup : Setup} {levels : Nat} {trail : List Visit} {file name : Text} {error : Error}
  {last : State} {body : List Node}

/-- What is recorded behind a move is recorded before it. -/
theorem Frame.RecordsBelow.of_leads {before after : Frame} {record : Visit}
    (hleads : Leads setup before after) (h : after.RecordsBelow setup record) :
    before.RecordsBelow setup record := by
  obtain ⟨below, hbelow, hrecords⟩ := h
  exact ⟨below, .head hleads hbelow, hrecords⟩

/-- What stops behind a move stops before it. -/
theorem Frame.StopsBelow.of_leads {before after : Frame} (hleads : Leads setup before after)
    (h : after.StopsBelow setup last error) :
    before.StopsBelow setup last error := by
  obtain ⟨below, record, hbelow, hstops⟩ := h
  exact ⟨below, record, .head hleads hbelow, hstops⟩

/-- What a list of expressions records is recorded at points below the list, if that is so for
each expression. -/
theorem visitAll_records
    (hvisit : ∀ (node : Node) (rest : List Node) (state : State),
      ∀ record ∈ (visit setup levels trail file node state).state.visits,
        record ∈ state.visits ∨
          Frame.RecordsBelow setup ⟨levels, trail, file, node :: rest, state⟩ record)
    (nodes : List Node) (state : State) :
    ∀ record ∈ (visitAll (visit setup levels trail file) nodes state).state.visits,
      record ∈ state.visits ∨ Frame.RecordsBelow setup ⟨levels, trail, file, nodes, state⟩ record := by
  induction nodes generalizing state with
  | nil => exact fun record hrecord => .inl hrecord
  | cons node rest ih =>
    intro record hrecord
    have hfirst := hvisit node rest state record
    cases hprogress : visit setup levels trail file node state with
    | stopped last error =>
      simp only [visitAll, hprogress, Progress.andThen] at hrecord hfirst
      exact hfirst hrecord
    | ready middle =>
      simp only [visitAll, hprogress, Progress.andThen] at hrecord hfirst
      rcases ih middle record hrecord with hold | hbelow
      · exact hfirst hold
      · exact .inr (hbelow.of_leads (.next hprogress))

/-- What changes no visits keeps those of an expansion. -/
theorem state_visits_mapReady {f : State → State} (hf : ∀ state, (f state).visits = state.visits)
    (progress : Progress) : (progress.mapReady f).state.visits = progress.state.visits := by
  cases progress with
  | ready state => exact hf state
  | stopped state error => rfl

/-- What a visit records, with everything below it, is recorded at points below it. -/
theorem visit_records (node : Node) (rest : List Node) (state : State) :
    ∀ record ∈ (visit setup levels trail file node state).state.visits,
      record ∈ state.visits ∨
        Frame.RecordsBelow setup ⟨levels, trail, file, node :: rest, state⟩ record := by
  induction levels generalizing trail file node rest state with
  | zero =>
    intro record hrecord
    rcases List.mem_cons.mp hrecord with rfl | hold
    · exact .inr ⟨_, .refl, .tooDeep⟩
    · exact .inl hold
  | succ levels ih =>
    intro record hrecord
    -- A visit recorded by the step itself, or before it.
    have hown : record ∈ (stepAt setup trail file node state).record :: state.visits →
        record ∈ state.visits ∨
          Frame.RecordsBelow setup ⟨levels + 1, trail, file, node :: rest, state⟩ record := by
      intro h
      rcases List.mem_cons.mp h with rfl | hold
      · exact .inr ⟨_, .refl, .step⟩
      · exact .inl hold
    rw [visit_succ] at hrecord
    cases hstep : stepAt setup trail file node state with
    | fail first fault =>
      simp only [hstep] at hrecord hown
      exact hown hrecord
    | done first env =>
      simp only [hstep] at hrecord hown
      exact hown hrecord
    | enter first scope body origin =>
      simp only [hstep, state_visits_mapReady (f := State.leave) fun _ => rfl] at hrecord hown
      rcases visitAll_records (ih · · ·) body _ record hrecord with hold | hbelow
      · exact hown hold
      · exact .inr (hbelow.of_leads (.enter hstep))
    | unit first name body =>
      simp only [hstep, state_visits_mapReady (f := State.endUnit) fun _ => rfl] at hrecord hown
      rcases visitAll_records (ih · · ·) body _ record hrecord with hold | hbelow
      · exact hown hold
      · exact .inr (hbelow.of_leads (.unit hstep))

/-- Every visit of an expansion but its root was recorded at a point it reached. -/
theorem exists_reached_of_mem_visits {record : Visit}
    (h : record ∈ (run setup name body).state.visits) :
    record = Visit.root name body ∨
      ∃ frame, Reached setup name body frame ∧ frame.Records setup record := by
  rcases visitAll_records visit_records body _ record h with hold | ⟨frame, hreached, hrecords⟩
  · exact .inl (List.mem_singleton.mp hold)
  · exact .inr ⟨frame, hreached, hrecords⟩

/-- Going through a list stops at a point below the list, if that is so for each expression. -/
theorem visitAll_stops
    (hvisit : ∀ (node : Node) (rest : List Node) (state : State),
      visit setup levels trail file node state = .stopped last error →
        Frame.StopsBelow setup ⟨levels, trail, file, node :: rest, state⟩ last error)
    {nodes : List Node} {state : State}
    (h : visitAll (visit setup levels trail file) nodes state = .stopped last error) :
    Frame.StopsBelow setup ⟨levels, trail, file, nodes, state⟩ last error := by
  induction nodes generalizing state with
  | nil => cases h
  | cons node rest ih =>
    cases hfirst : visit setup levels trail file node state with
    | stopped middle fault =>
      simp only [visitAll, hfirst, Progress.andThen] at h
      cases h
      exact hvisit node rest state hfirst
    | ready middle =>
      simp only [visitAll, hfirst, Progress.andThen] at h
      exact (ih h).of_leads (.next hfirst)

/-- An expansion that stops outside a body has stopped inside it. -/
theorem eq_stopped_of_mapReady {f : State → State} {progress : Progress}
    (h : progress.mapReady f = .stopped last error) :
    progress = .stopped last error := by
  cases progress with
  | ready state => cases h
  | stopped state error => exact h

/-- A visit that stops has stopped at a point below it. -/
theorem visit_stops (node : Node) (rest : List Node) (state : State)
    (h : visit setup levels trail file node state = .stopped last error) :
    Frame.StopsBelow setup ⟨levels, trail, file, node :: rest, state⟩ last error := by
  induction levels generalizing trail file node rest state with
  | zero =>
    cases h
    exact ⟨_, _, .refl, .tooDeep, rfl, rfl, .tooDeep⟩
  | succ levels ih =>
    rw [visit_succ] at h
    have hrecords : Frame.Records setup ⟨levels + 1, trail, file, node :: rest, state⟩
      (stepAt setup trail file node state).record := .step
    cases hstep : stepAt setup trail file node state with
    | fail record fault =>
      simp only [hstep] at h hrecords
      cases h
      exact ⟨_, _, .refl, hrecords, rfl, rfl, .step hstep⟩
    | done record env => simp [hstep] at h
    | enter record scope body origin =>
      simp only [hstep] at h
      exact (visitAll_stops ih (eq_stopped_of_mapReady h)).of_leads (.enter hstep)
    | unit record name body =>
      simp only [hstep] at h
      exact (visitAll_stops ih (eq_stopped_of_mapReady h)).of_leads (.unit hstep)

/-- An expansion that stops has stopped at a point it reached. -/
theorem exists_reached_of_stopped (h : run setup name body = .stopped last error) :
    ∃ frame record, Reached setup name body frame ∧ frame.Records setup record ∧
      last = frame.state.record record ∧ error.trail = record :: frame.trail := by
  obtain ⟨frame, record, hreached, hrecords, hlast, hcontext, _⟩ := visitAll_stops visit_stops h
  exact ⟨frame, record, hreached, hrecords, hlast, error.trail_of_context hcontext⟩

/-- An expansion that stops has stopped for what is wrong at a point it reached. -/
theorem exists_fails_of_stopped (h : run setup name body = .stopped last error) :
    ∃ frame record, Reached setup name body frame ∧ frame.Records setup record ∧
      error.trail = record :: frame.trail ∧ frame.Fails setup error.failure := by
  obtain ⟨frame, record, hreached, hrecords, _, hcontext, hfails⟩ := visitAll_stops visit_stops h
  exact ⟨frame, record, hreached, hrecords, error.trail_of_context hcontext, hfails⟩

/-- An expansion that comes to its end reaches the end of its list. -/
theorem reached_end {state : State} (h : run setup name body = .ready state) :
    Reached setup name body ⟨setup.limit, [], name, [], state⟩ := by
  have hlist (nodes : List Node) (before : State)
      (hnodes : visitAll (visit setup setup.limit [] name) nodes before = .ready state) :
      Relation.ReflTransGen (Leads setup) ⟨setup.limit, [], name, nodes, before⟩
        ⟨setup.limit, [], name, [], state⟩ := by
    induction nodes generalizing before with
    | nil =>
      obtain rfl : before = state := Progress.ready.inj hnodes
      exact .refl
    | cons node rest ih =>
      cases hfirst : visit setup setup.limit [] name node before with
      | stopped middle error => simp [visitAll, hfirst, Progress.andThen] at hnodes
      | ready middle =>
        simp only [visitAll, hfirst, Progress.andThen] at hnodes
        exact .head (.next hfirst) (ih middle hnodes)
  exact hlist body _ h

end Records

end Expansion

end Tapestry

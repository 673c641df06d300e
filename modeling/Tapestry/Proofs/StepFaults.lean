import Tapestry.Expansion.Step
import Tapestry.Proofs.ArgumentBinding
import Tapestry.Proofs.SourceStatements

/-!
# What a step can fail for

Looking up, binding, marking and installing fail for reasons of their own, and so does the step
of an expression. Only the expansion, which counts the levels, blames the limit on the depth. A fault
that shows a line shows a statement of the expression or of the block it owns.
-/

namespace Tapestry

/-- A fault that is not about the limit on the depth, and that shows no line but one of the given
statements. -/
def Fault.Within (statements : List Statement) (fault : Fault) : Prop :=
  fault.kind ≠ .recursionLimit ∧ ∀ line, fault.line = some line → line ∈ statements

/-- A fault, if there is one, is within the given statements. -/
def FaultsWithin {α : Type} (statements : List Statement) (result : Except Fault α) : Prop :=
  ∀ fault, result = .error fault → fault.Within statements

namespace FaultsWithin

variable {α β : Type} {statements more : List Statement} {fault : Fault}

/-- What succeeds is within any statements. -/
@[simp]
theorem ok (a : α) : FaultsWithin statements (.ok a) := by
  intro fault h
  cases h

/-- What fails is within the statements that its fault is within. -/
@[simp]
theorem error_iff : FaultsWithin statements (.error fault : Except Fault α) ↔ fault.Within statements :=
  ⟨fun h => h fault rfl, fun h _ hfault => Except.error.inj hfault ▸ h⟩

/-- What goes on is within the statements that its parts are within. -/
theorem bind {first : Except Fault α} {rest : α → Except Fault β} (hfirst : FaultsWithin statements first)
    (hrest : ∀ a, FaultsWithin statements (rest a)) : FaultsWithin statements (first.bind rest) := by
  cases first with
  | error fault => exact error_iff.mpr (hfirst fault rfl)
  | ok a => exact hrest a

/-- Changing what comes out changes no fault. -/
theorem map {f : α → β} {result : Except Fault α} (h : FaultsWithin statements result) :
    FaultsWithin statements (result.map f) := by
  cases result with
  | error fault => exact error_iff.mpr (h fault rfl)
  | ok a => exact ok (f a)

/-- What is within some statements is within more. -/
theorem mono {result : Except Fault α} (h : FaultsWithin statements result)
    (hsubset : statements ⊆ more) : FaultsWithin more result :=
  fun fault hfault => ⟨(h fault hfault).1, fun line hline => hsubset ((h fault hfault).2 line hline)⟩

end FaultsWithin

variable {statements : List Statement}

namespace Value

/-- Reading a name shows no line. -/
theorem within_readIdentifier (token : Token) : FaultsWithin statements (readIdentifier token) := by
  unfold readIdentifier
  split <;> simp [Fault.Within, Fault.blame]

/-- Reading a kind shows no line. -/
theorem within_readKind (token : Token) : FaultsWithin statements (readKind token) := by
  unfold readKind
  split <;> simp [Fault.Within, Fault.blame]

/-- Reading a lifetime shows no line. -/
theorem within_readLifetime (token : Token) : FaultsWithin statements (readLifetime token) := by
  unfold readLifetime
  split <;> simp [Fault.Within, Fault.blame]

end Value

/-- Looking for a variable shows no line. -/
theorem Env.within_resolveVariable (env : Env) (token : Token) :
    FaultsWithin statements (env.resolveVariable token) := by
  unfold resolveVariable
  split <;> simp [Fault.Within, noVariable, Fault.blame]

/-- Looking for a function shows no line. -/
theorem Env.within_resolveFunction (env : Env) (token : Token) :
    FaultsWithin statements (env.resolveFunction token) := by
  unfold resolveFunction
  split <;> simp [Fault.Within, noFunction, Fault.blame]

/-- Taking over the value of a variable shows no line. -/
theorem Param.within_share (param : Param) (token : Token) (found : Variable) :
    FaultsWithin statements (param.share token found) := by
  unfold share
  split <;> simp [Fault.Within, mismatch, Fault.blame]

/-- Binding an argument shows no line. -/
theorem Param.within_bind (param : Param) (token : Token) (env : Env) :
    FaultsWithin statements (param.bind token env) := by
  unfold bind
  split
  case h_1 value _ =>
    split
    case isTrue => exact (env.within_resolveVariable token).bind (param.within_share token)
    case isFalse => exact .ok _
  case h_2 unread _ =>
    -- What keeps the word from being read is only a cause of the fault.
    split
    case h_1 => simp [Fault.Within, unbound]
    case h_2 =>
      split
      case h_1 => simp [Fault.Within, unbound]
      case h_2 found _ => exact param.within_share token found

/-- Binding arguments one by one shows no line. -/
theorem Param.within_bindAll (env : Env) (params : List Param) (tokens : List Token) :
    FaultsWithin statements (bindAll env params tokens) := by
  fun_induction bindAll env params tokens with
  | case1 param params token tokens ih => exact (param.within_bind token env).bind fun _ => ih.map
  | case2 => exact .ok _

namespace Function

/-- Binding the parameters of a definition shows no line. -/
theorem within_bindPairs (seen : List Text) (tokens : List Token) :
    FaultsWithin statements (bindPairs seen tokens) := by
  fun_induction bindPairs seen tokens with
  | case1 seen kindToken nameToken rest ih =>
    refine (Value.within_readKind kindToken).bind fun kind => ?_
    refine (Value.within_readIdentifier nameToken).bind fun name => ?_
    split
    case isTrue => simp [Fault.Within, declaredTwice, Fault.blame]
    case isFalse => exact (ih name).bind fun _ => .ok _
  | case2 => exact .ok _

/-- Binding the arguments of a call shows no line. -/
theorem within_bind (function : Function) (tokens : List Token) (env : Env) :
    FaultsWithin statements (function.bind tokens env) := by
  unfold bind
  split
  case h_1 =>
    unfold bindPositional
    split
    case isTrue => exact Param.within_bindAll env _ tokens
    case isFalse => simp [Fault.Within]
  case h_2 =>
    unfold bindHeader
    split
    case h_1 lifetimeToken nameToken rest =>
      split
      case isTrue =>
        refine (Value.within_readLifetime lifetimeToken).bind fun lifetime => ?_
        refine (Value.within_readIdentifier nameToken).bind fun name => ?_
        exact (within_bindPairs [] rest).bind fun _ => .ok _
      case isFalse => simp [Fault.Within, bindHeader.badHeader]
    case h_2 => simp [Fault.Within, bindHeader.badHeader]

end Function

mutual

/-- A marker that owns a block is shown itself. -/
theorem Node.within_mark (owner : Text) (node : Node) :
    FaultsWithin node.statements (node.mark owner) := by
  cases node with
  | call head =>
    unfold mark
    split
    case isTrue => split <;> simp [Fault.Within, markerArguments, Fault.blame]
    case isFalse => exact .ok _
  | block head body =>
    unfold mark
    split
    case isTrue => simp [Fault.Within, markerBlock, Node.statements]
    case isFalse =>
      split
      case isTrue => exact .ok _
      case isFalse => exact ((within_markAll owner body).mono (block head body).bodyStatements_body_subset).map
  | splice head other => exact .ok _

/-- Marking expressions shows a statement of one of them. -/
theorem Node.within_markAll (owner : Text) (nodes : List Node) :
    FaultsWithin (bodyStatements nodes) (markAll owner nodes) := by
  cases nodes with
  | nil => exact .ok _
  | cons node rest =>
    rw [bodyStatements]
    refine ((within_mark owner node).mono (List.subset_append_left _ _)).bind fun _ => ?_
    exact ((within_markAll owner rest).mono (List.subset_append_right _ _)).map

end

/-- Installing a symbol shows no line. -/
theorem Scope.within_push (scope : Scope) (symbol : Symbol) :
    FaultsWithin statements (scope.push symbol) := by
  unfold push
  split <;> simp [Fault.Within, taken]

/-- Installing symbols one after the other shows no line. -/
theorem Scope.within_pushAll (scope : Scope) (symbols : List Symbol) :
    FaultsWithin statements (scope.pushAll symbols) := by
  induction symbols generalizing scope with
  | nil => exact .ok _
  | cons symbol rest ih => exact (scope.within_push symbol).bind ih

/-- Installing a symbol where its lifetime says shows no line. -/
theorem Env.within_push (env : Env) (symbol : Symbol) (lifetime : Lifetime) :
    FaultsWithin statements (env.push symbol lifetime) := by
  have hhere (env : Env) : FaultsWithin statements (env.pushHere symbol) := by
    cases env <;> exact (Scope.within_push _ symbol).map
  have hroot (env : Env) : FaultsWithin statements (env.pushRoot symbol) := by
    induction env with
    | root scope => exact (scope.within_push symbol).map
    | nested scope outer ih => exact ih.map
  have houter : FaultsWithin statements (env.pushOuter symbol) := by
    cases env with
    | root scope => exact (scope.within_push symbol).map
    | nested scope outer => exact (hhere outer).map
  cases lifetime with
  | everywhere => exact hroot env
  | outside => exact houter
  | here | unknown => exact hhere env

namespace Expansion

/-- Defining a function shows a statement of the expression. -/
theorem within_definedFunction (wantsBlock : Bool) (visit : Visit) (name : Text)
    (token : Token) (lifetime : Lifetime) :
    FaultsWithin visit.node.statements (definedFunction wantsBlock visit name token lifetime) := by
  cases wantsBlock with
  | false => exact .ok _
  | true =>
    simp only [definedFunction, if_true]
    have hmarked := Node.within_markAll name visit.node.body
    exact (hmarked.mono visit.node.bodyStatements_body_subset).map.bind fun _ => .ok _

/-- Checking whether a call owns a block shows no line. -/
theorem within_checkShape (node : Node) (function : Function) :
    FaultsWithin statements (checkShape node function) := by
  unfold checkShape
  split <;> simp [Fault.Within, badShape, Fault.blame]

/-- A step that fails has a fault within the given statements. -/
def Step.FailsWithin (statements : List Statement) : Step → Prop
  | .fail _ fault => fault.Within statements
  | .done _ _ | .enter _ _ _ _ | .unit _ _ _ => True

/-- Reserving a cell shows no line. -/
theorem within_stepRegister (state : State) (visit : Visit) :
    (stepRegister state visit).FailsWithin statements := by
  unfold stepRegister
  split
  case h_1 => trivial
  case h_2 =>
    dsimp only
    split
    case h_1 fault hfault => exact Env.within_push _ _ _ fault hfault
    case h_2 => trivial

/-- Asking for a unit shows no line. -/
theorem within_stepUnit (loader : Loader) (state : State) (visit : Visit) :
    (stepUnit loader state visit).FailsWithin statements := by
  unfold stepUnit
  split
  case h_1 => trivial
  case h_2 =>
    dsimp only
    split
    case h_1 => simp [Step.FailsWithin, Fault.Within, cannotImport]
    case h_2 =>
      split
      case isTrue => simp [Step.FailsWithin, Fault.Within, importCycle, Fault.blame]
      case isFalse => split <;> trivial

/-- A definition shows a statement of its own or of its body. -/
theorem within_stepDefine (wantsBlock : Bool) (state : State) (visit : Visit) :
    (stepDefine wantsBlock state visit).FailsWithin visit.node.statements := by
  unfold stepDefine
  split
  case h_1 =>
    split
    case h_1 fault hfault => exact within_definedFunction _ _ _ _ _ fault hfault
    case h_2 =>
      split
      case h_1 fault hfault => exact Env.within_push _ _ _ fault hfault
      case h_2 => trivial
  case h_2 => trivial

/-- Entering a body shows no line. -/
theorem within_stepBody (visit : Visit) (function : Function) (scope : Scope) (body : List Node) :
    (stepBody visit function scope body).FailsWithin statements := by
  unfold stepBody
  split
  case h_1 fault hfault => exact Scope.within_pushAll _ _ fault hfault
  case h_2 => trivial

/-- A call shows a statement of the expression. -/
theorem within_stepCall (loader : Loader) (state : State) (visit : Visit)
    (function : Function) :
    (stepCall loader state visit function).FailsWithin visit.node.statements := by
  unfold stepCall
  split
  case h_1 => trivial
  case h_2 => exact within_stepRegister state visit
  case h_3 => exact within_stepUnit loader state visit
  case h_4 => exact within_stepDefine _ state visit
  case h_5 | h_6 => exact within_stepBody visit _ _ _

/-- The step of an expression does not fail because of the limit, and it shows no line but those of
the expression. -/
theorem within_step (loader : Loader) (state : State) (visit : Visit) :
    (step loader state visit).FailsWithin visit.node.statements := by
  unfold step
  split
  case h_1 =>
    unfold stepSplice
    split
    case h_1 => trivial
    case h_2 => simp [Step.FailsWithin, Fault.Within, Fault.blame]
  case h_2 =>
    split
    case h_1 fault hfault => exact state.env.within_resolveFunction _ fault hfault
    case h_2 =>
      dsimp only
      split
      case h_1 fault hfault => exact within_checkShape _ _ fault hfault
      case h_2 =>
        split
        case h_1 fault hfault => exact Function.within_bind _ _ _ fault hfault
        case h_2 => exact within_stepCall loader state _ _

end Expansion

end Tapestry

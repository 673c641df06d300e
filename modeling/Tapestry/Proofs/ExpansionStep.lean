import Tapestry.Expansion.Step
import Tapestry.Proofs.ScopeContents

/-!
# What a step can do

One relation lists everything that visiting an expression can lead to, each case with the
lookups it rests on. What an expansion keeps is shown by going through these cases, so nothing
else has to look inside a step.
-/

namespace Tapestry

/-- Whether every argument that an action looks up is bound to a value of the kind it wants. -/
def Action.Supplied (bindings : Bindings) : Action → Prop
  | .primitive emitter => (emitter.code? bindings).isSome
  | .register => (Bindings.identifier? bindings "name").isSome
  | .expandUnit => (Bindings.str? bindings "path").isSome
  | .define _ =>
    (Bindings.lifetime? bindings "lifetime").isSome ∧
      (Bindings.identifier? bindings "name").isSome ∧
        2 ≤ bindings.length ∧ ∀ v ∈ bindings.drop 2, v.value.kind = .typeName
  | .template _ | .blockTemplate _ => True

namespace Expansion

variable {outcome : Step} {wantsBlock : Bool}

/-- The visit that a step records. -/
def Step.record : Step → Visit
  | .fail visit _ | .done visit _ | .enter visit _ _ _ | .unit visit _ _ => visit

/-- An expression calls a function with bound arguments. -/
structure Calls (env : Env) (node : Node) (function : Function) (bindings : Bindings) : Prop where
  unspliced : ∀ head owner, node ≠ .splice head owner
  resolved : env.resolveFunction node.callee = .ok function
  shaped : checkShape node function = .ok ()
  bound : function.bind node.arguments env = .ok bindings

/-- The record of a visit whose arguments are bound. -/
def called (env : Env) (visit : Visit) (function : Function) (bindings : Bindings) : Visit :=
  { visit with function := some function, home := env.home visit.node.callee.text, bindings }

/-- How far the record of a visit has come when its step ends. -/
inductive Began (env : Env) (visit : Visit) : Visit → Prop where
  | start : Began env visit visit
  | found {function} (resolved : env.resolveFunction visit.node.callee = .ok function) :
    Began env visit
      { visit with function := some function, home := env.home visit.node.callee.text }
  | bound {function bindings} (call : Calls env visit.node function bindings) :
    Began env visit (called env visit function bindings)

/-- What visiting an expression can lead to. -/
inductive Acts (loader : Loader) (state : State) (visit : Visit) : Step → Prop where
  /-- The expression cannot be expanded. -/
  | fail {record fault} (began : Began state.env visit record) :
    Acts loader state visit (.fail record fault)
  /-- The block of a caller is spliced in. -/
  | splice {head owner block} (spliced : visit.node = .splice head owner)
      (found : state.env.block? owner = some block) :
    Acts loader state visit
      (.enter { visit with bodyParse := block.parse } .empty block.body block.file)
  /-- An argument is missing, and nothing happens. -/
  | idle {function bindings} (call : Calls state.env visit.node function bindings)
      (missing : ¬ function.action.Supplied bindings) :
    Acts loader state visit (.done (called state.env visit function bindings) state.env)
  /-- A primitive emits its instructions. -/
  | emit {function bindings primitive} (call : Calls state.env visit.node function bindings)
      (action : function.action = .primitive primitive) :
    Acts loader state visit
      (.done { called state.env visit function bindings with
        code := (primitive.code? bindings).getD [] } state.env)
  /-- A cell is reserved. -/
  | register {function bindings name token env}
      (call : Calls state.env visit.node function bindings) (action : function.action = .register)
      (named : Bindings.identifier? bindings "name" = some (name, token))
      (pushed : state.env.push
        (.var ⟨name, ⟨.cell (Register.allocate state.env.vars), token⟩⟩) .here = .ok env) :
    Acts loader state visit
      (.done { called state.env visit function bindings with
        code := [.nop ("reg " ++ name ++ " :" ++ Number.nat (Register.allocate state.env.vars))] } env)
  /-- A template is installed. -/
  | define {function bindings wantsBlock lifetime name token template env}
      (call : Calls state.env visit.node function bindings)
      (action : function.action = .define wantsBlock)
      (lasting : Bindings.lifetime? bindings "lifetime" = some lifetime)
      (named : Bindings.identifier? bindings "name" = some (name, token))
      (defined : definedFunction wantsBlock (called state.env visit function bindings) name token
        lifetime = .ok template)
      (pushed : state.env.push (.func template) lifetime = .ok env) :
    Acts loader state visit
      (.done { called state.env visit function bindings with
        code := [.nop template.signature] } env)
  /-- A unit has been expanded before. -/
  | included {function bindings target token body}
      (call : Calls state.env visit.node function bindings) (action : function.action = .expandUnit)
      (path : Bindings.str? bindings "path" = some (target, token))
      (loaded : (loader target visit.file).content = .ok body)
      (outside : (loader target visit.file).name ∉ state.imports)
      (known : (loader target visit.file).name ∈ state.files) :
    Acts loader state visit
      (.done { called state.env visit function bindings with
        code := [.nop ("import " ++ (loader target visit.file).name ++ " (included)")] } state.env)
  /-- A unit is to be expanded. -/
  | unit {function bindings target token body}
      (call : Calls state.env visit.node function bindings) (action : function.action = .expandUnit)
      (path : Bindings.str? bindings "path" = some (target, token))
      (loaded : (loader target visit.file).content = .ok body)
      (outside : (loader target visit.file).name ∉ state.imports)
      (fresh : (loader target visit.file).name ∉ state.files) :
    Acts loader state visit
      (.unit { called state.env visit function bindings with
        bodyParse := state.files.length
        code := [.nop ("import " ++ (loader target visit.file).name)] }
        (loader target visit.file).name body)
  /-- The body of a template is to be expanded. -/
  | template {function bindings body scope}
      (call : Calls state.env visit.node function bindings)
      (action : function.action = .template body)
      (pushed : Scope.empty.pushAll (bindings.map .var) = .ok scope) :
    Acts loader state visit
      (.enter { called state.env visit function bindings with bodyParse := function.parse } scope body
        function.file)
  /-- The body of a block template is to be expanded with the block of the caller. -/
  | blockTemplate {function bindings body scope}
      (call : Calls state.env visit.node function bindings)
      (action : function.action = .blockTemplate body)
      (pushed : (Scope.empty.addBlock function.name ⟨visit.node.body, visit.file, visit.parse⟩).pushAll
        (bindings.map .var) = .ok scope) :
    Acts loader state visit
      (.enter { called state.env visit function bindings with bodyParse := function.parse } scope body
        function.file)

/-- A definition describes a template with the parameters of its header that comes from where the
definition stands. It keeps the body of the definition, or that body marked. -/
theorem exists_of_definedFunction {visit : Visit} {name : Text} {token : Token}
    {lifetime : Lifetime} {template : Function}
    (h : definedFunction wantsBlock visit name token lifetime = .ok template) :
    ∃ action,
      template = { name, params := Function.headerParams visit.bindings, lifetime, action,
                   style := .positional, source := some token, file := visit.file,
                   parse := visit.parse } ∧
      (wantsBlock = false ∧ action = .template visit.node.body ∨
        ∃ marked, wantsBlock = true ∧ Node.markAll name visit.node.body = .ok marked ∧
          action = .blockTemplate marked) := by
  cases wantsBlock with
  | false =>
    cases h
    exact ⟨_, rfl, .inl ⟨rfl, rfl⟩⟩
  | true =>
    simp only [definedFunction, if_true] at h
    obtain ⟨action, haction, h⟩ := exists_of_bind_eq_ok h
    obtain ⟨marked, hmarked, rfl⟩ := exists_of_map_eq_ok haction
    cases h
    exact ⟨_, rfl, .inr ⟨marked, rfl, hmarked, rfl⟩⟩

variable {loader : Loader} {state : State} {visit : Visit} {function : Function}
  {bindings : Bindings}

/-- What reserving a cell leads to. -/
theorem stepRegister_acts (call : Calls state.env visit.node function bindings)
    (action : function.action = .register) :
    Acts loader state visit
      (stepRegister state (called state.env visit function bindings)) := by
  unfold stepRegister
  split
  case h_1 hnone =>
    exact .idle call fun h => by simp_all [Action.Supplied, called]
  case h_2 name token hname =>
    dsimp only
    split
    case h_1 fault _ => exact .fail (.bound call)
    case h_2 env hpush => exact .register call action hname hpush

/-- What a definition leads to. -/
theorem stepDefine_acts (call : Calls state.env visit.node function bindings)
    (action : function.action = .define wantsBlock) :
    Acts loader state visit
      (stepDefine wantsBlock state (called state.env visit function bindings)) := by
  unfold stepDefine
  split
  case h_1 lifetime name token hlifetime hname =>
    split
    case h_1 fault _ => exact .fail (.bound call)
    case h_2 template hdefined =>
      split
      case h_1 fault _ => exact .fail (.bound call)
      case h_2 env hpush => exact .define call action hlifetime hname hdefined hpush
  case h_2 hmissing =>
    refine .idle call fun h => ?_
    rw [action] at h
    obtain ⟨lifetime, hlifetime⟩ := Option.isSome_iff_exists.mp h.1
    obtain ⟨⟨name, token⟩, hname⟩ := Option.isSome_iff_exists.mp h.2.1
    exact hmissing lifetime name token hlifetime hname

/-- What asking for a unit leads to. -/
theorem stepUnit_acts (call : Calls state.env visit.node function bindings)
    (action : function.action = .expandUnit) :
    Acts loader state visit
      (stepUnit loader state (called state.env visit function bindings)) := by
  unfold stepUnit
  split
  case h_1 hnone =>
    exact .idle call fun h => by simp_all [Action.Supplied, called]
  case h_2 target token hpath =>
    dsimp only
    split
    case h_1 fault _ => exact .fail (.bound call)
    case h_2 body hload =>
      split
      case isTrue hcycle => exact .fail (.bound call)
      case isFalse hcycle =>
        have houtside : (loader target visit.file).name ∉ state.imports := by
          simpa [called] using hcycle
        split
        case isTrue hknown =>
          exact .included call action hpath hload houtside (by simpa [called] using hknown)
        case isFalse hfresh =>
          exact .unit call action hpath hload houtside (by simpa [called] using hfresh)

/-- What a bound call leads to. -/
theorem stepCall_acts (call : Calls state.env visit.node function bindings) :
    Acts loader state visit
      (stepCall loader state (called state.env visit function bindings) function) := by
  unfold stepCall
  split
  case h_1 primitive action => exact .emit call action
  case h_2 action => exact stepRegister_acts call action
  case h_3 action => exact stepUnit_acts call action
  case h_4 wantsBlock action => exact stepDefine_acts call action
  case h_5 body action =>
    unfold stepBody
    split
    case h_1 => exact .fail (.bound call)
    case h_2 scope hpush => exact .template call action hpush
  case h_6 body action =>
    unfold stepBody
    split
    case h_1 => exact .fail (.bound call)
    case h_2 scope hpush => exact .blockTemplate call action hpush

/-- Visiting an expression leads to one of the listed cases. -/
theorem step_acts (loader : Loader) (state : State) (visit : Visit) :
    Acts loader state visit (step loader state visit) := by
  unfold step
  split
  case h_1 head owner hnode =>
    unfold stepSplice
    split
    case h_1 block hfound => exact .splice hnode hfound
    case h_2 => exact .fail .start
  case h_2 hnode =>
    split
    case h_1 => exact .fail .start
    case h_2 function hresolved =>
      dsimp only
      split
      case h_1 => exact .fail (.found hresolved)
      case h_2 hshaped =>
        split
        case h_1 => exact .fail (.found hresolved)
        case h_2 bindings hbound => exact stepCall_acts ⟨hnode, hresolved, hshaped, hbound⟩

/-- The step of a bound call acts on it. -/
theorem step_of_calls (loader : Loader) (call : Calls state.env visit.node function bindings) :
    step loader state visit =
      stepCall loader state (called state.env visit function bindings) function := by
  unfold step
  split
  case h_1 head owner hnode => exact absurd hnode (call.unspliced head owner)
  case h_2 =>
    simp only [call.resolved, call.shaped, call.bound]
    rfl

/-! ## Records -/

/-- However far a visit comes, its record is about the same expression and has emitted nothing. -/
theorem Began.same {record : Visit} (h : Began state.env visit record) :
    record.node = visit.node ∧ record.file = visit.file ∧ record.code = visit.code := by
  cases h <;> exact ⟨rfl, rfl, rfl⟩

/-- A step records the parse of its expression. -/
theorem Acts.record_parse (h : Acts loader state visit outcome) :
    outcome.record.parse = visit.parse := by
  cases h with
  | fail began => cases began <;> rfl
  | _ => rfl

/-- A step records its own expression. -/
theorem Acts.record_node (h : Acts loader state visit outcome) :
    outcome.record.node = visit.node := by
  cases h with
  | fail began => exact began.same.1
  | _ => rfl

/-- A step records the unit of its expression. -/
theorem Acts.record_file (h : Acts loader state visit outcome) :
    outcome.record.file = visit.file := by
  cases h with
  | fail began => exact began.same.2.1
  | _ => rfl

/-- Only a call of a built-in function emits instructions. -/
theorem Acts.calls_of_mem_code (hvisit : visit.code = []) (h : Acts loader state visit outcome)
    {instruction : Instruction} (hmem : instruction ∈ outcome.record.code) :
    ∃ function bindings, Calls state.env visit.node function bindings ∧
      function.isBuiltin = true := by
  have hsilent {record : Visit} (hrecord : record.code = visit.code) :
      instruction ∉ record.code := by simp [hrecord, hvisit]
  cases h with
  | fail began => exact absurd hmem (hsilent began.same.2.2)
  | splice | idle | template | blockTemplate => exact absurd hmem (hsilent rfl)
  | emit call action | register call action | define call action | included call action
  | unit call action => exact ⟨_, _, call, by simp [Function.isBuiltin, action]⟩

end Expansion

end Tapestry

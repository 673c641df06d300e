import Tapestry.Expansion.Visit
import Tapestry.Splice

/-!
# One step of an expansion

Visiting one expression looks its function up, binds its arguments and acts. The step itself
visits nothing else: it says which expressions are to be visited below it and where. The
expansion of a whole program repeats steps.
-/

namespace Tapestry

/-- A source unit found under a name, or why it could not be read. -/
structure Loaded where
  /-- The name that identifies the unit, whatever spelling was used to find it. -/
  name : Text
  content : Except Failure (List Node)

/-- Where units come from: finds the unit a target names, seen from the unit that asks. -/
abbrev Loader := (target origin : Text) → Loaded

namespace Expansion

/-- What changes while a program is expanded. -/
structure State where
  /-- The scopes visible at the current expression. -/
  env : Env
  /-- The units being expanded, outermost first. -/
  imports : List Text
  /-- Every unit expanded so far, in order. -/
  files : List Text
  /-- Every visit begun so far, latest first. -/
  visits : List Visit

/-- What a step leads to. -/
inductive Step where
  /-- The expression cannot be expanded. -/
  | fail (visit : Visit) (fault : Fault)
  /-- The expression is done, and the environment may have new symbols. -/
  | done (visit : Visit) (env : Env)
  /-- A body is to be visited in a new scope inside the current environment. -/
  | enter (visit : Visit) (scope : Scope) (body : List Node) (file : Text)
  /-- A unit is to be visited in the current environment. -/
  | unit (visit : Visit) (name : Text) (body : List Node)

/-- Complaint about a call with or without a block. -/
def badShape (kind : FaultKind) (verb : Text) (node : Node) (function : Function) : Fault :=
  .blame kind node.callee ("`" ++ function.name ++ "` called " ++ verb ++ " a block")

/-- Check that a call owns a block exactly if its function takes one. -/
def checkShape (node : Node) (function : Function) : Except Fault Unit :=
  match node, function.wantsBlock with
  | .block _ _, false => .error (badShape .noBlockFunction "with" node function)
  | .block _ _, true => .ok ()
  | _, true => .error (badShape .blockFunction "without" node function)
  | _, false => .ok ()

/-- Splice in the block passed to the owner of a splice point. -/
def stepSplice (state : State) (visit : Visit) (owner : Text) : Step :=
  match state.env.block? owner with
  | some block => .enter { visit with bodyParse := block.parse } .empty block.body block.file
  | none =>
    .fail visit (.blame .codeInceptionNotFound visit.node.callee
      ("no block was passed to `" ++ owner ++ "`"))

/-- Reserve the least free cell and bind its address in the current scope. -/
def stepRegister (state : State) (visit : Visit) : Step :=
  match Bindings.identifier? visit.bindings "name" with
  | none => .done visit state.env
  | some (name, token) =>
    let cell := Register.allocate state.env.vars
    match state.env.push (.var ⟨name, ⟨.cell cell, token⟩⟩) .here with
    | .error fault => .fail visit { fault with token := some token }
    | .ok env =>
      .done { visit with code := [.nop ("reg " ++ name ++ " :" ++ Number.nat cell)] } env

/-- The function a definition installs. -/
def definedFunction (wantsBlock : Bool) (visit : Visit) (name : Text) (token : Token)
    (lifetime : Lifetime) : Except Fault Function := do
  let action ←
    if wantsBlock then Action.blockTemplate <$> Node.markAll name visit.node.body
    else .ok (.template visit.node.body)
  .ok { name, params := Function.headerParams visit.bindings, lifetime, action, style := .positional,
        source := some token, file := visit.file, parse := visit.parse }

/-- Install the template that a definition describes. -/
def stepDefine (wantsBlock : Bool) (state : State) (visit : Visit) : Step :=
  match Bindings.lifetime? visit.bindings "lifetime", Bindings.identifier? visit.bindings "name" with
  | some lifetime, some (name, token) =>
    match definedFunction wantsBlock visit name token lifetime with
    | .error fault => .fail visit fault
    | .ok function =>
      match state.env.push (.func function) lifetime with
      | .error fault => .fail visit { fault with token := some token }
      | .ok env => .done { visit with code := [.nop function.signature] } env
  | _, _ => .done visit state.env

/-- Complaint about a unit that cannot be loaded. -/
def cannotImport (target : Text) (token : Token) (cause : Failure) : Fault :=
  { kind := .importFailed
    detail := "cannot import " ++ Quoted.write target
    token := some token
    line := none
    causes := [cause] }

/-- Complaint about a unit that is being expanded already. -/
def importCycle (name : Text) (imports : List Text) (token : Token) : Fault :=
  .blame .importCycle token (name ++ " imports itself via " ++ Text.join " -> " imports)

/-- Find a unit and expand it, unless it has been expanded before. Its parse is the next one. -/
def stepUnit (loader : Loader) (state : State) (visit : Visit) : Step :=
  match Bindings.str? visit.bindings "path" with
  | none => .done visit state.env
  | some (target, token) =>
    let loaded := loader target visit.file
    match loaded.content with
    | .error failure => .fail visit (cannotImport target token failure)
    | .ok body =>
      if state.imports.contains loaded.name then
        .fail visit (importCycle loaded.name state.imports token)
      else if state.files.contains loaded.name then
        .done { visit with code := [.nop ("import " ++ loaded.name ++ " (included)")] } state.env
      else
        .unit { visit with bodyParse := state.files.length, code := [.nop ("import " ++ loaded.name)] }
          loaded.name body

/-- Enter the body of a template in a scope that holds the arguments, and the block of the
caller if there is one. -/
def stepBody (visit : Visit) (function : Function) (scope : Scope) (body : List Node) : Step :=
  match scope.pushAll (visit.bindings.map .var) with
  | .error fault => .fail visit fault
  | .ok scope => .enter { visit with bodyParse := function.parse } scope body function.file

/-- Act on a call whose arguments are bound. -/
def stepCall (loader : Loader) (state : State) (visit : Visit) (function : Function) : Step :=
  match function.action with
  | .primitive primitive =>
    .done { visit with code := (primitive.code? visit.bindings).getD [] } state.env
  | .register => stepRegister state visit
  | .expandUnit => stepUnit loader state visit
  | .define wantsBlock => stepDefine wantsBlock state visit
  | .template body => stepBody visit function .empty body
  | .blockTemplate body =>
    stepBody visit function
      (Scope.empty.addBlock function.name ⟨visit.node.body, visit.file, visit.parse⟩) body

/-- Visit one expression. -/
def step (loader : Loader) (state : State) (visit : Visit) : Step :=
  match visit.node with
  | .splice _ owner => stepSplice state visit owner
  | node =>
    match state.env.resolveFunction node.callee with
    | .error fault => .fail visit fault
    | .ok function =>
      let visit :=
        { visit with function := some function, home := state.env.home node.callee.text }
      match checkShape node function with
      | .error fault => .fail visit fault
      | .ok () =>
        match function.bind node.arguments state.env with
        | .error fault => .fail visit fault
        | .ok bindings => stepCall loader state { visit with bindings } function

end Expansion

end Tapestry

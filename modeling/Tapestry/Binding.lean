import Tapestry.Scope
import Tapestry.Value.Reading

/-!
# Binding arguments

Each argument word is first read directly as the kind its parameter wants. Failing that, it is
the name of a visible variable, whose value is then bound under the name of the parameter. An
address that reads as a name is always looked up.

The header of a definition has its own grammar: a lifetime, a name, then pairs of a kind and a
parameter name.
-/

namespace Tapestry

/-- The variables bound for one call, in the order of the parameters. -/
abbrev Bindings := List Variable

namespace Bindings

/-- The first binding of a name. -/
def get? (bindings : Bindings) (name : Text) : Option Variable :=
  bindings.find? (·.name == name)

/-- The integer bound to a name. -/
def int? (bindings : Bindings) (name : Text) : Option Int :=
  (get? bindings name).bind fun v =>
    match v.value.datum with
    | .int value => some value
    | _ => none

/-- The cell index bound to a name. -/
def cell? (bindings : Bindings) (name : Text) : Option Int :=
  (get? bindings name).bind fun v =>
    match v.value.datum with
    | .cell index => some index
    | _ => none

/-- The name bound to a name, and the word it was written as. -/
def identifier? (bindings : Bindings) (name : Text) : Option (Text × Token) :=
  (get? bindings name).bind fun v =>
    match v.value.datum with
    | .identifier bound => some (bound, v.value.token)
    | _ => none

/-- The string bound to a name, and the word it was written as. -/
def str? (bindings : Bindings) (name : Text) : Option (Text × Token) :=
  (get? bindings name).bind fun v =>
    match v.value.datum with
    | .str contents => some (contents, v.value.token)
    | _ => none

/-- The lifetime bound to a name. -/
def lifetime? (bindings : Bindings) (name : Text) : Option Lifetime :=
  (get? bindings name).bind fun v =>
    match v.value.datum with
    | .lifetime lifetime => some lifetime
    | _ => none

end Bindings

namespace Param

/-- Complaint about a word that neither reads as the kind of a parameter nor leads to a
variable. -/
def unbound (param : Param) (token : Token) (first second : Fault) : Fault :=
  { kind := .argumentParse
    detail := "cannot bind `" ++ token.text ++ "` to `" ++ param.render ++ "`"
    token := some token
    line := none
    causes := [.fault first, .fault second] }

/-- Complaint about a variable of another kind. -/
def mismatch (param : Param) (token : Token) (found : Variable) : Fault :=
  .blame .argumentType token
    ("`" ++ found.name ++ "` is " ++ found.value.kind.name ++ ", argument `" ++ param.name ++
      "` expects " ++ param.kind.name)

/-- Bind a visible variable to a parameter of its kind. -/
def share (param : Param) (token : Token) (found : Variable) : Except Fault Variable :=
  if found.value.kind = param.kind then .ok (found.rename param.name)
  else .error (param.mismatch token found)

/-- Bind one word to a parameter. -/
def bind (param : Param) (token : Token) (env : Env) : Except Fault Variable :=
  match Value.read param.kind token with
  | .ok value =>
    if value.datum.isReference then
      (env.resolveVariable token).bind (param.share token)
    else .ok { name := param.name, value }
  | .error unread =>
    match Value.readIdentifier token with
    | .error noName => .error (param.unbound token unread noName)
    | .ok _ =>
      match env.resolveVariable token with
      | .error notFound => .error (param.unbound token unread notFound)
      | .ok found => param.share token found

/-- Bind words to parameters in order, up to the first that fails. -/
def bindAll (env : Env) : List Param → List Token → Except Fault Bindings
  | param :: params, token :: tokens =>
    (param.bind token env).bind fun v =>
      (bindAll env params tokens).map (v :: ·)
  | _, _ => .ok []

end Param

namespace Function

/-- Bind one word to each parameter. -/
def bindPositional (function : Function) (tokens : List Token) (env : Env) :
    Except Fault Bindings :=
  if tokens.length = function.params.length then Param.bindAll env function.params tokens
  else
    .error
      { kind := .argumentLen
        detail := "`" ++ function.name ++ "` takes " ++ Number.nat function.params.length ++
          " arguments, got " ++ Number.nat tokens.length
        token := tokens[function.params.length]?
        line := none
        causes := [] }

/-- Complaint about a parameter name that a header uses twice. -/
def declaredTwice (token : Token) : Fault :=
  .blame .duplicateSymbol token ("parameter `" ++ token.text ++ "` is declared twice")

/-- Bind the pairs of a kind and a parameter name; `seen` are the names used before. -/
def bindPairs (seen : List Text) : List Token → Except Fault Bindings
  | kindToken :: nameToken :: rest => do
    let kind ← Value.readKind kindToken
    let name ← Value.readIdentifier nameToken
    if seen.contains name then .error (declaredTwice nameToken)
    else
      let vars ← bindPairs (name :: seen) rest
      .ok ({ name, value := { datum := .kind kind, token := kindToken } } :: vars)
  | _ => .ok []

/-- Bind the header of a definition. -/
def bindHeader (function : Function) (tokens : List Token) : Except Fault Bindings :=
  match tokens with
  | lifetimeToken :: nameToken :: rest =>
    if rest.length % 2 = 0 then do
      let lifetime ← Value.readLifetime lifetimeToken
      let name ← Value.readIdentifier nameToken
      let params ← bindPairs [] rest
      .ok ({ name := "lifetime", value := ⟨.lifetime lifetime, lifetimeToken⟩ } ::
        { name := "name", value := ⟨.identifier name, nameToken⟩ } :: params)
    else .error (badHeader function tokens)
  | _ => .error (badHeader function tokens)
where
  /-- Complaint about the number of words in a header. -/
  badHeader (function : Function) (tokens : List Token) : Fault :=
    { kind := .argumentLen
      detail := "`" ++ function.name ++
        "` takes `lifetime name` followed by `type argname` pairs, got " ++
        Number.nat tokens.length ++ " tokens"
      token := tokens.getLast?
      line := none
      causes := [] }

/-- Bind argument words in the way the function wants. -/
def bind (function : Function) (tokens : List Token) (env : Env) : Except Fault Bindings :=
  match function.style with
  | .positional => function.bindPositional tokens env
  | .header => function.bindHeader tokens

/-- The parameters a bound header declares. -/
def headerParams (bindings : Bindings) : List Param :=
  (bindings.drop 2).filterMap fun v =>
    match v.value.datum with
    | .kind kind => some { name := v.name, kind }
    | _ => none

end Function

end Tapestry

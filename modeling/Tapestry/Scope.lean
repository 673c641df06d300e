import Tapestry.Symbol

/-!
# Scopes and environments

A scope holds symbols in the order they were installed, no two of one name, and the blocks
that callers passed to block templates. An environment is the root scope or a scope nested in
an environment; names are sought from the innermost scope outward.

Functions and variables are sought apart: a variable does not hide an outer function of its
name, nor the other way round.
-/

namespace Tapestry

/-- The block passed at a call, the unit it was written in, and the parse it comes from. -/
structure CallerBlock where
  body : List Node
  file : Text
  parse : Nat
  deriving Repr

/-- One scope. -/
structure Scope where
  /-- Symbols in the order they were installed. -/
  symbols : List Symbol
  /-- Blocks passed by callers, by the name of the block template. -/
  blocks : List (Text × CallerBlock)
  deriving Repr

namespace Scope

/-- A scope without symbols. -/
def empty : Scope := ⟨[], []⟩

/-- The symbol of a name. -/
def find? (scope : Scope) (name : Text) : Option Symbol := scope.symbols.find? (·.name == name)

/-- The function of a name. -/
def func? (scope : Scope) (name : Text) : Option Function :=
  (scope.find? name).bind Symbol.func?

/-- The variable of a name. -/
def var? (scope : Scope) (name : Text) : Option Variable :=
  (scope.find? name).bind Symbol.var?

/-- The functions in the order they were installed. -/
def functions (scope : Scope) : List Function := scope.symbols.filterMap Symbol.func?

/-- The variables in the order they were installed. -/
def vars (scope : Scope) : List Variable := scope.symbols.filterMap Symbol.var?

/-- Complaint about a name that is taken. -/
def taken (name : Text) : Fault :=
  { kind := .duplicateSymbol
    detail := "`" ++ name ++ "` is already defined in this scope"
    token := none
    line := none
    causes := [] }

/-- Install a symbol behind the others, unless its name is taken. -/
def push (scope : Scope) (symbol : Symbol) : Except Fault Scope :=
  if (scope.find? symbol.name).isSome then .error (taken symbol.name)
  else .ok { scope with symbols := scope.symbols ++ [symbol] }

/-- Install symbols one after the other. -/
def pushAll (scope : Scope) : List Symbol → Except Fault Scope
  | [] => .ok scope
  | symbol :: rest => (scope.push symbol).bind fun scope => scope.pushAll rest

/-- Register the block passed to a block template, in place of an earlier one. -/
def addBlock (scope : Scope) (owner : Text) (block : CallerBlock) : Scope :=
  { scope with blocks := (owner, block) :: scope.blocks.filter fun entry => entry.1 != owner }

/-- The block registered for a block template. -/
def block? (scope : Scope) (owner : Text) : Option CallerBlock := scope.blocks.lookup owner

end Scope

/-- The root scope, or a scope nested in an environment. -/
inductive Env where
  | root (scope : Scope)
  | nested (scope : Scope) (outer : Env)
  deriving Repr

namespace Env

/-- The innermost scope. -/
def scope : Env → Scope
  | root scope | nested scope _ => scope

/-- The environment around the innermost scope; the root is its own. -/
def outer : Env → Env
  | root scope => root scope
  | nested _ outer => outer

/-- The number of scopes around the innermost one. -/
def depth : Env → Nat
  | root _ => 0
  | nested _ outer => outer.depth + 1

/-- The scopes from the innermost outward. -/
def scopes : Env → List Scope
  | root scope => [scope]
  | nested scope outer => scope :: outer.scopes

/-- The outermost scope. -/
def rootScope : Env → Scope
  | root scope => scope
  | nested _ outer => outer.rootScope

/-- The innermost symbol of a name, of either sort. -/
def find? (env : Env) (name : Text) : Option Symbol := env.scopes.findSome? (·.find? name)

/-- The innermost function of a name. -/
def func? (env : Env) (name : Text) : Option Function := env.scopes.findSome? (·.func? name)

/-- The innermost variable of a name. -/
def var? (env : Env) (name : Text) : Option Variable := env.scopes.findSome? (·.var? name)

/-- The innermost block registered for a block template. -/
def block? (env : Env) (owner : Text) : Option CallerBlock := env.scopes.findSome? (·.block? owner)

/-- The number of scopes around the one that holds the innermost function of a name, so 0 for
a function of the root scope. -/
def home (env : Env) (name : Text) : Nat :=
  match env with
  | root _ => 0
  | nested scope outer => if (scope.func? name).isSome then outer.depth + 1 else outer.home name

/-- Every visible variable, those of the innermost scope first, shadowed ones included. -/
def vars (env : Env) : List Variable := env.scopes.flatMap Scope.vars

/-- Complaint about a word that names no function. -/
def noFunction (token : Token) : Fault :=
  .blame .functionNotFound token ("cannot find function `" ++ token.text ++ "`")

/-- Complaint about a word that names no variable. -/
def noVariable (token : Token) : Fault :=
  .blame .variableNotFound token ("cannot find variable `" ++ token.text ++ "`")

/-- Find the function a word names. -/
def resolveFunction (env : Env) (token : Token) : Except Fault Function :=
  match env.func? token.text with
  | some function => .ok function
  | none => .error (noFunction token)

/-- Find the variable a word names. -/
def resolveVariable (env : Env) (token : Token) : Except Fault Variable :=
  match env.var? token.text with
  | some v => .ok v
  | none => .error (noVariable token)

/-- Install into the innermost scope. -/
def pushHere (symbol : Symbol) : Env → Except Fault Env
  | root scope => (scope.push symbol).map root
  | nested scope outer => (scope.push symbol).map fun scope => nested scope outer

/-- Install into the root scope. -/
def pushRoot (symbol : Symbol) : Env → Except Fault Env
  | root scope => (scope.push symbol).map root
  | nested scope outer => (pushRoot symbol outer).map (nested scope)

/-- Install into the scope around the innermost one, or into the root if there is none. -/
def pushOuter (symbol : Symbol) : Env → Except Fault Env
  | root scope => (scope.push symbol).map root
  | nested scope outer => (pushHere symbol outer).map (nested scope)

/-- Install a symbol where its lifetime says. -/
def push (env : Env) (symbol : Symbol) : Lifetime → Except Fault Env
  | .everywhere => pushRoot symbol env
  | .outside => pushOuter symbol env
  | .here | .unknown _ => pushHere symbol env

end Env

end Tapestry

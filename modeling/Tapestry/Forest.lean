import Tapestry.Scope

/-!
# Forests of scopes

A history of nested scopes: scopes are numbered in the order they were made, scope 0 is the
root, and every other scope lies inside an earlier one. A scope knows the scopes around it and
the root. It holds its symbols twice: in a table, where names are sought, and in the order they
were installed, in which they are listed.
-/

namespace Tapestry

/-- One scope of a forest. -/
structure Forest.Entry where
  /-- The numbers of the scopes around this one, the nearest first. -/
  around : List Nat
  /-- The number of the root. -/
  root : Nat
  /-- The symbols by name. -/
  table : List (Text × Symbol)
  /-- The symbols in the order they were installed, and the blocks passed by callers. -/
  scope : Scope

/-- Numbered scopes. -/
structure Forest where
  entries : List Forest.Entry

namespace Forest

/-- A root scope without symbols. -/
def empty : Forest := ⟨[⟨[], 0, [], .empty⟩]⟩

/-- The number of scopes. -/
def size (forest : Forest) : Nat := forest.entries.length

/-- The scope of a number. -/
def entry (forest : Forest) (number : Nat) : Entry :=
  forest.entries.getD number ⟨[], 0, [], .empty⟩

/-- The symbols of a scope by name. -/
def table (forest : Forest) (number : Nat) : List (Text × Symbol) := (forest.entry number).table

/-- The symbols of a scope in order, and its blocks. -/
def scope (forest : Forest) (number : Nat) : Scope := (forest.entry number).scope

/-- Make a scope inside another; its number is the number of scopes before it. -/
def child (forest : Forest) (number : Nat) : Forest :=
  ⟨forest.entries ++
    [⟨number :: (forest.entry number).around, (forest.entry number).root, [], .empty⟩]⟩

/-- The numbers of the scopes from one outward. -/
def chain (forest : Forest) (number : Nat) : List Nat := number :: (forest.entry number).around

/-- The scope around one. -/
def parent? (forest : Forest) (number : Nat) : Option Nat := (forest.entry number).around.head?

/-- The root seen from a scope. -/
def root (forest : Forest) (number : Nat) : Nat := (forest.entry number).root

/-- The number of scopes around one. -/
def depth (forest : Forest) (number : Nat) : Nat := (forest.entry number).around.length

/-- The scope a symbol of a lifetime is installed in. -/
def target (forest : Forest) (number : Nat) : Lifetime → Nat
  | .everywhere => forest.root number
  | .outside => (forest.parent? number).getD number
  | .here | .unknown _ => number

/-- Change a scope. -/
def modify (forest : Forest) (number : Nat) (change : Entry → Entry) : Forest :=
  ⟨forest.entries.modify number change⟩

/-- The scope with a symbol put into its table under its name, and behind its other symbols. -/
def Entry.install (entry : Entry) (symbol : Symbol) : Entry :=
  { entry with
    table := (symbol.name, symbol) :: entry.table.filter fun item => item.1 != symbol.name
    scope := { entry.scope with symbols := entry.scope.symbols ++ [symbol] } }

/-- Install a symbol where its lifetime says, seen from a scope, unless its name is taken there. -/
def push (forest : Forest) (number : Nat) (symbol : Symbol) (lifetime : Lifetime) :
    Forest × Option Fault :=
  let target := forest.target number lifetime
  if ((forest.table target).lookup symbol.name).isSome then (forest, some (Scope.taken symbol.name))
  else (forest.modify target fun entry => entry.install symbol, none)

/-- Install symbols in order up to the first that cannot be; those before it stay. -/
def pushAll (forest : Forest) (number : Nat) (lifetime : Lifetime) :
    List Symbol → Forest × Option Fault
  | [] => (forest, none)
  | symbol :: rest =>
    match forest.push number symbol lifetime with
    | (after, some fault) => (after, some fault)
    | (after, none) => after.pushAll number lifetime rest

/-- Seek a name from a scope outward, up to the first symbol under it that is of a sort. -/
def seek {α : Type} (forest : Forest) (number : Nat) (sort : Symbol → Option α) (name : Text) : Option α :=
  (forest.chain number).findSome? fun n => ((forest.table n).lookup name).bind sort

/-- The innermost symbol of a name, of either sort. -/
def find? (forest : Forest) (number : Nat) (name : Text) : Option Symbol := forest.seek number some name

/-- Find the function a word names, seen from a scope. -/
def resolveFunction (forest : Forest) (number : Nat) (token : Token) : Except Fault Function :=
  match forest.seek number Symbol.func? token.text with
  | some f => .ok f
  | none => .error (Env.noFunction token)

/-- Find the variable a word names, seen from a scope. -/
def resolveVariable (forest : Forest) (number : Nat) (token : Token) : Except Fault Variable :=
  match forest.seek number Symbol.var? token.text with
  | some v => .ok v
  | none => .error (Env.noVariable token)

/-- Every variable seen from a scope, those of the innermost scope first. -/
def vars (forest : Forest) (number : Nat) : List Variable :=
  (forest.chain number).flatMap fun n => (forest.scope n).vars

/-- Register the block passed to a block template. -/
def addBlock (forest : Forest) (number : Nat) (owner : Text) (block : CallerBlock) : Forest :=
  forest.modify number fun entry => { entry with scope := entry.scope.addBlock owner block }

/-- The environment of a scope and the scopes around it. -/
def envOf (scope : Scope) : List Scope → Env
  | [] => .root scope
  | next :: outer => .nested scope (envOf next outer)

/-- The environment seen from a scope. -/
def env (forest : Forest) (number : Nat) : Env :=
  envOf (forest.scope number) ((forest.entry number).around.map forest.scope)

end Forest

end Tapestry

import Tapestry.Value

/-!
# Symbols

A scope holds functions and variables. Functions are built in, or they are templates: stored
bodies that are expanded at every call. A block template also receives the block of its
caller.
-/

namespace Tapestry

/-- A variable binds a name to a value. -/
structure Variable where
  name : Text
  value : Value
  deriving DecidableEq, Repr

namespace Variable

/-- The same value under another name. -/
def rename (v : Variable) (name : Text) : Variable := { v with name }

/-- Name, kind and value on one line. -/
def render (v : Variable) : Text :=
  v.name ++ " => " ++ v.value.kind.name ++ "(" ++ v.value.render ++ ")"

end Variable

/-- A formal parameter. -/
structure Param where
  name : Text
  kind : Kind
  deriving DecidableEq, Repr

/-- Name and kind of a parameter. -/
def Param.render (param : Param) : Text := param.name ++ " " ++ param.kind.name

/-- Built-in functions that only emit instructions. -/
inductive Primitive where
  | plus
  | minus
  | move
  | moveAbs
  | moveAbsLeft
  | moveRel
  | print
  | read
  | loopEnter
  | loopExit
  | add
  | null
  | printAt
  | readAt
  | mov
  | mov2
  deriving DecidableEq, Repr

/-- What calling a function does. -/
inductive Action where
  /-- Emit instructions. -/
  | primitive (primitive : Primitive)
  /-- Reserve a cell and bind its address to a name. -/
  | register
  /-- Expand another source unit. -/
  | expandUnit
  /-- Install a template, or with `wantsBlock` a block template. -/
  | define (wantsBlock : Bool)
  /-- Expand a stored body. -/
  | template (body : List Node)
  /-- Expand a stored body that may splice in the block of the caller. -/
  | blockTemplate (body : List Node)
  deriving Repr

/-- How argument words are bound. -/
inductive BindingStyle where
  /-- One word per parameter. -/
  | positional
  /-- The words are the header of a definition. -/
  | header
  deriving DecidableEq, Repr

/-- A callable symbol. -/
structure Function where
  name : Text
  params : List Param
  lifetime : Lifetime
  action : Action
  style : BindingStyle
  /-- The word that named the function in its definition. -/
  source : Option Token
  /-- The unit its body was written in. -/
  file : Text
  /-- The parse its body comes from. -/
  parse : Nat
  deriving Repr

namespace Function

/-- Whether a call must own a block. -/
def wantsBlock (function : Function) : Bool :=
  match function.action with
  | .define _ | .blockTemplate _ => true
  | _ => false

/-- Whether the function is built in. -/
def isBuiltin (function : Function) : Bool :=
  match function.action with
  | .template _ | .blockTemplate _ => false
  | _ => true

/-- The stored body of a template. -/
def body (function : Function) : List Node :=
  match function.action with
  | .template body | .blockTemplate body => body
  | _ => []

/-- What a signature calls the function. -/
def sort (function : Function) : Text :=
  match function.action with
  | .primitive _ | .register | .expandUnit => "builtin"
  | .define _ => "builtin block"
  | .template _ => "macro"
  | .blockTemplate _ => "macroblock"

/-- The header of a function. -/
def signature (function : Function) : Text :=
  function.sort ++ " " ++ function.name ++ "(" ++
    Text.join ", " (function.params.map Param.render) ++ ")"

end Function

/-- What a scope holds under a name. -/
inductive Symbol where
  | func (f : Function)
  | var (v : Variable)
  deriving Repr

namespace Symbol

/-- The name of a symbol. -/
def name : Symbol → Text
  | func f => f.name
  | var v => v.name

/-- The function, if the symbol is one. -/
def func? : Symbol → Option Function
  | func f => some f
  | var _ => none

/-- The variable, if the symbol is one. -/
def var? : Symbol → Option Variable
  | func _ => none
  | var v => some v

end Symbol

end Tapestry

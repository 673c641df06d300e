import Tapestry.Fault
import Tapestry.Text.Quoted

/-!
# Values

Arguments are typed: integers, names, cell addresses, strings, kinds and lifetimes. A value
remembers the word it was read from. An address is either a cell index or a reference, a name
that still has to be looked up.
-/

namespace Tapestry

/-- What sort of value a parameter takes. -/
inductive Kind where
  | int
  | identifier
  | address
  | str
  | typeName
  | lifetime
  /-- A number that stands for no kind. -/
  | unknown (code : Int)
  deriving DecidableEq, Repr

namespace Kind

/-- The kinds that have a name, in the order of their numbers. -/
def all : List Kind := [int, identifier, address, str, typeName, lifetime]

/-- The kind with a given number. -/
def ofCode (code : Int) : Kind :=
  match code with
  | 0 => int
  | 1 => identifier
  | 2 => address
  | 3 => str
  | 4 => typeName
  | 5 => lifetime
  | code => unknown code

/-- The name of a kind. -/
def name : Kind → Text
  | int => "int"
  | identifier => "identifier"
  | address => "address"
  | str => "str"
  | typeName => "type"
  | lifetime => "lifetime"
  | unknown code => "Kind(" ++ Number.int code ++ ")"

end Kind

/-- Where a new symbol is installed, seen from the statement that installs it. -/
inductive Lifetime where
  /-- The scope the statement runs in. -/
  | here
  /-- The root scope. -/
  | everywhere
  /-- The scope around the one the statement runs in. -/
  | outside
  /-- A number that stands for no lifetime; it installs like `here`. -/
  | unknown (code : Int)
  deriving DecidableEq, Repr

namespace Lifetime

/-- The lifetimes that have a name, in the order of their numbers. -/
def all : List Lifetime := [here, everywhere, outside]

/-- The lifetime with a given number. -/
def ofCode (code : Int) : Lifetime :=
  match code with
  | 0 => here
  | 1 => everywhere
  | 2 => outside
  | code => unknown code

/-- The name of a lifetime. -/
def name : Lifetime → Text
  | here => "local"
  | everywhere => "global"
  | outside => "parent"
  | unknown code => "Lifetime(" ++ Number.int code ++ ")"

end Lifetime

/-- The content of a value. -/
inductive Datum where
  | int (value : Int)
  | identifier (name : Text)
  /-- An address known as a cell index. -/
  | cell (index : Int)
  /-- An address written as the name of an address variable. -/
  | reference (name : Text)
  | str (contents : Text)
  | kind (kind : Kind)
  | lifetime (lifetime : Lifetime)
  deriving DecidableEq, Repr

namespace Datum

/-- The kind of a datum. -/
def kindOf : Datum → Kind
  | int _ => .int
  | identifier _ => .identifier
  | cell _ | reference _ => .address
  | str _ => .str
  | kind _ => .typeName
  | lifetime _ => .lifetime

/-- The datum as text. -/
def render : Datum → Text
  | int value => Number.int value
  | identifier name => name
  | cell index => ":" ++ Number.int index
  | reference name => "&" ++ name
  | str contents => Quoted.write contents
  | kind k => k.name
  | lifetime l => l.name

/-- Whether the datum is a reference still to be looked up. -/
def isReference : Datum → Bool
  | reference _ => true
  | _ => false

end Datum

/-- A datum and the word it was read from. -/
structure Value where
  datum : Datum
  token : Token
  deriving DecidableEq, Repr

namespace Value

/-- The kind of a value. -/
def kind (value : Value) : Kind := value.datum.kindOf

/-- The value as text. -/
def render (value : Value) : Text := value.datum.render

end Value

end Tapestry

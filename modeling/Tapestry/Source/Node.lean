import Tapestry.Source.Token

/-!
# Expression trees

A node is a plain call, a call that owns a block of deeper statements, or a splice point:
the place in a stored body where the block of the caller goes.
-/

namespace Tapestry

/-- An expression of a source unit. -/
inductive Node where
  /-- A call without a block. -/
  | call (head : Statement)
  /-- A call that owns the statements one level deeper. -/
  | block (head : Statement) (body : List Node)
  /-- Where the block passed to the function `owner` is spliced in. -/
  | splice (head : Statement) (owner : Text)
  deriving Repr

namespace Node

/-- The statement that carries the words of the expression. -/
def head : Node → Statement
  | call head | block head _ | splice head _ => head

/-- Nesting level. -/
def depth (node : Node) : Int := node.head.depth

/-- The word that names the function. -/
def callee (node : Node) : Token := node.head.head

/-- The argument words. -/
def arguments (node : Node) : List Token := node.head.args

/-- The statements a block owns; other nodes own none. -/
def body : Node → List Node
  | call _ | splice _ _ => []
  | block _ body => body

/-- Four spaces per nesting level. -/
def indent (depth : Int) : Text := Text.times depth.toNat "    "

mutual

/-- One line for the node and one for each node below it, indented by level. -/
def lines : Node → List Text
  | call head => [indent head.depth ++ head.render]
  | block head body => (indent head.depth ++ head.render) :: bodyLines body
  | splice head owner => [indent head.depth ++ "<code:" ++ owner ++ ">"]

/-- The lines of each node in order. -/
def bodyLines : List Node → List Text
  | [] => []
  | node :: rest => node.lines ++ bodyLines rest

end

/-- The tree as indented text. -/
def render (node : Node) : Text := Text.dropRight (· == 10) (Text.unlines node.lines)

/-- The root of a unit with the given top-level expressions. -/
def root (body : List Node) : Node := .block .root body

mutual

/-- The statements of a tree in source order. -/
def statements : Node → List Statement
  | call head | splice head _ => [head]
  | block head body => head :: bodyStatements body

/-- The statements of each node in order. -/
def bodyStatements : List Node → List Statement
  | [] => []
  | node :: rest => node.statements ++ bodyStatements rest

end

end Node

end Tapestry

import Tapestry.Fault

/-!
# Splice points

In the body of a block template the statement `code` marks where the block of the caller
goes. Installing the template turns each such statement into a splice point. Nested
definitions of block templates keep theirs: those belong to the inner template.
-/

namespace Tapestry.Node

/-- The word that marks a splice point. -/
def marker : Text := "code"

/-- Complaint about a marker with arguments. -/
def markerArguments (owner : Text) (token : Token) : Fault :=
  .blame .codeInceptionArguments token ("`code` in `" ++ owner ++ "` cannot take arguments")

/-- Complaint about a marker that owns a block. -/
def markerBlock (owner : Text) (head : Statement) : Fault :=
  { kind := .codeInceptionBlock
    detail := "`code` in `" ++ owner ++ "` cannot own a block"
    token := some head.head
    line := some head
    causes := [] }

mutual

/-- Turn the markers of a node into splice points for `owner`. -/
def mark (owner : Text) : Node → Except Fault Node
  | call head =>
    if head.head.text = marker then
      match head.args with
      | [] => .ok (splice head owner)
      | first :: _ => .error (markerArguments owner first)
    else .ok (call head)
  | block head body =>
    if head.head.text = marker then .error (markerBlock owner head)
    else if head.head.text = Text.ofString "macroblock" then .ok (block head body)
    else (markAll owner body).map (block head)
  | splice head other => .ok (splice head other)

/-- Turn the markers of a body into splice points for `owner`. -/
def markAll (owner : Text) : List Node → Except Fault (List Node)
  | [] => .ok []
  | node :: rest => (node.mark owner).bind fun node => (markAll owner rest).map (node :: ·)

end

end Tapestry.Node

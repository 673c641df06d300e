import Tapestry.Source.Lexing

/-!
# Statements to trees

A statement owns the statements one level deeper that follow it directly. Levels may drop by
any amount but rise only by one, counted from a level above the first statement.

Statements are taken in order, beside a stack of the blocks that can still grow, with the root of
the unit at the bottom. A statement closes the blocks that it is not deeper than and goes into the
innermost one that is left. It opens a block of its own if the next statement is one level deeper.
-/

namespace Tapestry.Source

/-! ## Open blocks -/

/-- A block that can still grow. -/
structure OpenBlock where
  head : Statement
  /-- What is in the block so far, the latest first. -/
  trees : List Node

namespace OpenBlock

/-- The level of the block; what is in it stands one level deeper. -/
def level (block : OpenBlock) : Int := block.head.depth

/-- What is in the block, in order. -/
def body (block : OpenBlock) : List Node := block.trees.reverse

/-- Put a tree behind what is in the block. -/
def add (block : OpenBlock) (tree : Node) : OpenBlock := { block with trees := tree :: block.trees }

/-- The block when nothing more goes into it. -/
def close (block : OpenBlock) : Node := .block block.head block.body

end OpenBlock

/-- The blocks that can still grow: the innermost, and those around it from the inside out. The
root of the unit is the last. -/
structure OpenBlocks where
  inner : OpenBlock
  outer : List OpenBlock

namespace OpenBlocks

/-- Nothing but the root is open. -/
def start : OpenBlocks := ⟨⟨.root, []⟩, []⟩

/-- Close the blocks that a statement at a level is not deeper than. Nothing is left if the root
is one of them. -/
def closeTo (level : Int) : OpenBlock → List OpenBlock → Option OpenBlocks
  | root, [] => if level ≤ root.level then none else some ⟨root, []⟩
  | inner, next :: outer =>
    if level ≤ inner.level then closeTo level (next.add inner.close) outer
    else some ⟨inner, next :: outer⟩

/-- Put a statement into the innermost block; `owns` says that it opens a block of its own. -/
def put (blocks : OpenBlocks) (statement : Statement) (owns : Bool) : OpenBlocks :=
  if owns then ⟨⟨statement, []⟩, blocks.inner :: blocks.outer⟩
  else ⟨blocks.inner.add (.call statement), blocks.outer⟩

/-- What is in the root when all blocks in it are closed. -/
def finish : OpenBlock → List OpenBlock → List Node
  | root, [] => root.body
  | inner, next :: outer => finish (next.add inner.close) outer

end OpenBlocks

/-! ## Nesting -/

/-- Why a statement finds no place. -/
inductive Misplaced where
  /-- It is more than one level deeper than the innermost block. The statement before it is at the
  level `previous`. -/
  | jump (previous : Int) (statement : Statement)
  /-- It is no deeper than the root, and no block is left to put it in. -/
  | uprooted (statement : Statement)

/-- Complaint about a statement more than one level deeper than the one before it. -/
def levelJump (previous : Int) (statement : Statement) : Fault :=
  { kind := .blockLevel
    detail := "level " ++ Number.int statement.depth ++ " follows level " ++ Number.int previous
    token := some statement.head
    line := some statement
    causes := [] }

/-- What is wrong with a text whose statement finds no place. Statements of a text are all deeper
than the root. -/
def Misplaced.failure : Misplaced → Failure
  | jump previous statement => .fault (levelJump previous statement)
  | uprooted _ => .trouble (.other "no open block")

/-- The level of the next statement; at the end it is that of the root. -/
def levelAhead (rest : List Statement) : Int := rest.head?.elim (-1) Statement.depth

/-- Put statements into blocks, the one before them being at the level `previous`. -/
def nestFrom (previous : Int) (blocks : OpenBlocks) : List Statement → Except Misplaced OpenBlocks
  | [] => .ok blocks
  | statement :: rest =>
    if blocks.inner.level + 1 < statement.depth then .error (.jump previous statement)
    else
      match OpenBlocks.closeTo statement.depth blocks.inner blocks.outer with
      | none => .error (.uprooted statement)
      | some blocks =>
        nestFrom statement.depth (blocks.put statement (levelAhead rest == statement.depth + 1)) rest

/-- The trees of a list of statements, if its levels rise only by one. -/
def nest (statements : List Statement) : Except Misplaced (List Node) :=
  (nestFrom (-1) .start statements).map fun blocks => OpenBlocks.finish blocks.inner blocks.outer

/-- The top-level expressions of a source text. -/
def parse (text : Text) : Except Failure (List Node) := do
  let statements ← statements text
  (nest statements).mapError Misplaced.failure

end Tapestry.Source

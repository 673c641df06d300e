import Mathlib.Data.List.Chain
import Tapestry.Proofs.SourceStatements

/-!
# Nesting follows the levels

A list of statements can be nested if its levels start at 0 and rise only by one. Its trees have the
statements in order, every child one level below its parent, and a block wherever the next statement
is deeper; no other trees do.

Open blocks stand one level apart, down to the root, and what is in them is layered by level. The
innermost one is that of the statement before, or the one that statement has opened. So a statement
that rises only by one finds its block, and the root is never closed.
-/

namespace Tapestry

/-! ## Trees by level -/

namespace Node

/-- A call that owns at least one statement. -/
def IsBlock : Node → Prop
  | block _ body => body ≠ []
  | call _ | splice _ _ => False

mutual

/-- A node and all nodes below it, in source order. -/
def nodes : Node → List Node
  | call head => [call head]
  | splice head owner => [splice head owner]
  | block head body => block head body :: bodyNodes body

/-- The nodes of each tree in order. -/
def bodyNodes : List Node → List Node
  | [] => []
  | node :: rest => node.nodes ++ bodyNodes rest

end

/-- A call is the first node of its list. -/
theorem bodyNodes_call (head : Statement) (rest : List Node) :
    bodyNodes (.call head :: rest) = .call head :: bodyNodes rest := rfl

/-- A block is the first node of its list, and those of its body follow it. -/
theorem bodyNodes_block (head : Statement) (body rest : List Node) :
    bodyNodes (.block head body :: rest) = .block head body :: (bodyNodes body ++ bodyNodes rest) := rfl

/-- The level of the first of some nodes; if there is none, the level `after`. -/
def levelNext (nodes : List Node) (after : Int) : Int := nodes.head?.elim after depth

/-- Among nodes in a row, with the level `after` behind them, the blocks are just those that are
followed by the next deeper level. -/
def Outlined : List Node → Int → Prop
  | [], _ => True
  | node :: rest, after =>
    (node.IsBlock ↔ levelNext rest after = node.depth + 1) ∧ Outlined rest after

/-- The level behind expressions is that of what follows them. -/
theorem levelNext_append (front back : List Node) (after : Int) :
    levelNext (front ++ back) after = levelNext front (levelNext back after) := by
  cases front <;> rfl

/-- Expressions are outlined in turn. -/
theorem outlined_append {front back : List Node} {after : Int} :
    Outlined (front ++ back) after ↔ Outlined front (levelNext back after) ∧ Outlined back after := by
  induction front with
  | nil => simp [Outlined]
  | cons node rest ih => rw [List.cons_append, Outlined, Outlined, ih, levelNext_append, and_assoc]

/-- A node whose children are one level deeper, and which is a call unless it owns some. -/
def Ordered (node : Node) : Prop :=
  (∀ child ∈ node.body, child.depth = node.depth + 1) ∧ (¬ node.IsBlock → node = .call node.head)

/-- Trees whose roots are at a level, with every child one level below its parent. Each node is a call
or a block that is not empty. -/
inductive Layered : Int → List Node → Prop where
  | nil {level} : Layered level []
  | call {level head rest} (depth_eq : head.depth = level) (after : Layered level rest) :
    Layered level (.call head :: rest)
  | block {level head body rest} (depth_eq : head.depth = level) (owns : body ≠ [])
      (inside : Layered (level + 1) body) (after : Layered level rest) :
    Layered level (.block head body :: rest)

/-- Statements that do not begin at a level or deeper. -/
def Leaves (level : Int) (statements : List Statement) : Prop :=
  ∀ statement ∈ statements.head?, statement.depth < level

/-- The statement of a call is the first of its list. -/
theorem bodyStatements_call (head : Statement) (rest : List Node) :
    bodyStatements (.call head :: rest) = head :: bodyStatements rest := rfl

/-- The statement of a block is the first of its list, and those of its body follow it. -/
theorem bodyStatements_block (head : Statement) (body rest : List Node) :
    bodyStatements (.block head body :: rest) = head :: (bodyStatements body ++ bodyStatements rest) :=
  rfl

namespace Layered

variable {level after : Int} {trees : List Node} {rest : List Statement}

/-- Expressions at a level stand side by side. -/
theorem append {front back : List Node} (hfront : Layered level front) (hback : Layered level back) :
    Layered level (front ++ back) := by
  induction hfront with
  | nil => exact hback
  | call depth_eq _ ih => exact .call depth_eq (ih hback)
  | block depth_eq owns inside _ _ ih => exact .block depth_eq owns inside (ih hback)

/-- Layered trees begin with a statement at their level. -/
theorem exists_first (h : Layered level trees) (hsome : trees ≠ []) :
    ∃ first rest, bodyStatements trees = first :: rest ∧ first.depth = level := by
  cases h with
  | nil => exact absurd rfl hsome
  | call depth_eq _ => exact ⟨_, _, bodyStatements_call _ _, depth_eq⟩
  | block depth_eq _ _ _ => exact ⟨_, _, bodyStatements_block _ _ _, depth_eq⟩

/-- What follows a body leaves its level. -/
theorem leaves_append (h : Layered level trees) (hrest : Leaves level rest) :
    Leaves (level + 1) (bodyStatements trees ++ rest) := by
  intro statement hstatement
  by_cases hnil : trees = []
  · subst hnil
    have hlt := hrest statement hstatement
    omega
  · obtain ⟨first, others, hfirst, hdepth⟩ := h.exists_first hnil
    rw [hfirst] at hstatement
    obtain rfl : first = statement := by simpa using hstatement
    omega

/-- Statements that leave a level do not begin with trees at that level. -/
theorem not_leaves (h : Layered level trees) (hsome : trees ≠ []) (rest : List Statement) :
    ¬ Leaves level (bodyStatements trees ++ rest) := by
  intro hleaves
  obtain ⟨first, others, hfirst, hdepth⟩ := h.exists_first hsome
  have hlt := hleaves first (by simp [hfirst])
  omega

/-- Layered trees are determined by their statements, also when others follow that leave the level. -/
theorem unique (h : Layered level trees) {others : List Node} (hothers : Layered level others)
    {following : List Statement} (hrest : Leaves level rest) (hfollowing : Leaves level following)
    (heq : bodyStatements trees ++ rest = bodyStatements others ++ following) :
    trees = others ∧ rest = following := by
  induction h generalizing others rest following with
  | nil =>
    cases others with
    | nil => exact ⟨rfl, heq⟩
    | cons node nodes =>
      have heq : rest = bodyStatements (node :: nodes) ++ following := heq
      exact absurd (heq ▸ hrest) (hothers.not_leaves (List.cons_ne_nil _ _) following)
  | @call level head after depth_eq hafter ih =>
    cases hothers with
    | nil =>
      have heq : bodyStatements (.call head :: after) ++ rest = following := heq
      exact absurd (heq ▸ hfollowing)
        ((Layered.call depth_eq hafter).not_leaves (List.cons_ne_nil _ _) rest)
    | call _ hother =>
      simp only [bodyStatements_call, List.cons_append] at heq
      obtain ⟨rfl, htail⟩ := List.cons.inj heq
      obtain ⟨rfl, rfl⟩ := ih hother hrest hfollowing htail
      exact ⟨rfl, rfl⟩
    | block _ howns hinside hother =>
      -- The call is followed by nothing deeper, the block by its own first statement.
      simp only [bodyStatements_call, bodyStatements_block, List.cons_append, List.append_assoc] at heq
      obtain ⟨rfl, htail⟩ := List.cons.inj heq
      exact absurd (htail ▸ hafter.leaves_append hrest) (hinside.not_leaves howns _)
  | @block level head body after depth_eq owns hinside hafter ihInside ihAfter =>
    cases hothers with
    | nil =>
      have heq : bodyStatements (.block head body :: after) ++ rest = following := heq
      exact absurd (heq ▸ hfollowing)
        ((Layered.block depth_eq owns hinside hafter).not_leaves (List.cons_ne_nil _ _) rest)
    | call _ hother =>
      simp only [bodyStatements_call, bodyStatements_block, List.cons_append, List.append_assoc] at heq
      obtain ⟨rfl, htail⟩ := List.cons.inj heq
      exact absurd (htail ▸ hother.leaves_append hfollowing) (hinside.not_leaves owns _)
    | block _ _ hotherInside hother =>
      simp only [bodyStatements_block, List.cons_append, List.append_assoc] at heq
      obtain ⟨rfl, htail⟩ := List.cons.inj heq
      obtain ⟨rfl, hlater⟩ := ihInside hotherInside (hafter.leaves_append hrest)
        (hother.leaves_append hfollowing) htail
      obtain ⟨rfl, rfl⟩ := ihAfter hother hrest hfollowing hlater
      exact ⟨rfl, rfl⟩

/-- Before a level that is no deeper, the trees come next or that level does. -/
theorem levelNext_le (h : Layered level trees) (hafter : after ≤ level) :
    levelNext (bodyNodes trees) after ≤ level := by
  cases h with
  | nil => exact hafter
  | call depth_eq _ => exact Int.le_of_eq depth_eq
  | block depth_eq _ _ _ => exact Int.le_of_eq depth_eq

/-- In layered trees the blocks are just the nodes with something deeper behind them. -/
theorem outlined (h : Layered level trees) (hafter : after ≤ level) :
    Outlined (bodyNodes trees) after := by
  induction h generalizing after with
  | nil => trivial
  | @call level head rest depth_eq hrest ih =>
    have hnext := hrest.levelNext_le hafter
    have hdepth : (Node.call head).depth = level := depth_eq
    rw [bodyNodes_call, Outlined]
    refine ⟨?_, ih hafter⟩
    simp only [IsBlock, false_iff]
    omega
  | @block level head body rest depth_eq owns hinside hrest ihInside ihRest =>
    have hnext := hrest.levelNext_le hafter
    have hdepth : (Node.block head body).depth = level := depth_eq
    rw [bodyNodes_block, Outlined]
    refine ⟨?_, outlined_append.mpr ⟨ihInside (by omega), ihRest hafter⟩⟩
    -- The first statement of the body stands behind the head.
    have hbehind : levelNext (bodyNodes body ++ bodyNodes rest) after = level + 1 := by
      cases hinside with
      | nil => exact absurd rfl owns
      | call depth_eq _ => exact depth_eq
      | block depth_eq _ _ _ => exact depth_eq
    rw [hdepth, hbehind]
    exact iff_of_true owns rfl

/-- Expressions at a level have it as their depth. -/
theorem depth_of_mem (h : Layered level trees) : ∀ tree ∈ trees, tree.depth = level := by
  induction h with
  | nil => exact fun _ htree => absurd htree List.not_mem_nil
  | call depth_eq _ ih => exact List.forall_mem_cons.mpr ⟨depth_eq, ih⟩
  | block depth_eq _ _ _ _ ih => exact List.forall_mem_cons.mpr ⟨depth_eq, ih⟩

/-- Every node of layered trees is ordered. -/
theorem ordered (h : Layered level trees) :
    ∀ node ∈ bodyNodes trees, level ≤ node.depth ∧ node.Ordered := by
  induction h with
  | nil => exact fun _ hnode => absurd hnode List.not_mem_nil
  | call depth_eq _ ih =>
    rw [bodyNodes_call]
    refine List.forall_mem_cons.mpr ⟨⟨Int.le_of_eq depth_eq.symm, ?_, fun _ => rfl⟩, ih⟩
    exact fun _ hchild => absurd hchild List.not_mem_nil
  | block depth_eq owns hinside _ ihInside ihRest =>
    rw [bodyNodes_block]
    refine List.forall_mem_cons.mpr ⟨⟨Int.le_of_eq depth_eq.symm, ?_, fun hnot => absurd owns hnot⟩, ?_⟩
    · intro child hchild
      rw [hinside.depth_of_mem child hchild, ← depth_eq]
      rfl
    · refine List.forall_mem_append.mpr ⟨fun node hnode => ?_, ihRest⟩
      obtain ⟨hdepth, hordered⟩ := ihInside node hnode
      exact ⟨by omega, hordered⟩

end Layered

/-- Trees at a level are layered if all their nodes are ordered. -/
theorem layered_of_ordered : ∀ (trees : List Node) (level : Int), (∀ tree ∈ trees, tree.depth = level) →
    (∀ node ∈ bodyNodes trees, node.Ordered) → Layered level trees
  | [], _, _, _ => .nil
  | .call head :: rest, level, hdepth, hordered => by
    obtain ⟨hhead, hdepth⟩ := List.forall_mem_cons.mp hdepth
    obtain ⟨_, hordered⟩ := List.forall_mem_cons.mp (bodyNodes_call head rest ▸ hordered)
    exact .call hhead (layered_of_ordered rest level hdepth hordered)
  | .splice head owner :: rest, level, _, hordered => by
    have hcall := (hordered (.splice head owner) List.mem_cons_self).2 id
    cases hcall
  | .block head body :: rest, level, hdepth, hordered => by
    obtain ⟨hhead, hdepth⟩ := List.forall_mem_cons.mp hdepth
    obtain ⟨⟨hchildren, hcall⟩, hordered⟩ :=
      List.forall_mem_cons.mp (bodyNodes_block head body rest ▸ hordered)
    obtain ⟨hbody, hrest⟩ := List.forall_mem_append.mp hordered
    have howns : body ≠ [] := fun hnil => nomatch hcall fun howns => howns hnil
    have hinside : ∀ tree ∈ body, tree.depth = level + 1 := fun tree htree => by
      rw [hchildren tree htree, hhead]
    exact .block hhead howns (layered_of_ordered body (level + 1) hinside hbody)
      (layered_of_ordered rest level hdepth hrest)

/-- The statements of trees are those of their nodes in turn. -/
theorem map_head_bodyNodes : ∀ trees : List Node, (bodyNodes trees).map head = bodyStatements trees
  | [] => rfl
  | .call head :: rest => congrArg (head :: ·) (map_head_bodyNodes rest)
  | .splice head _ :: rest => congrArg (head :: ·) (map_head_bodyNodes rest)
  | .block head body :: rest => by
    rw [bodyNodes_block, bodyStatements_block, List.map_cons, List.map_append,
      map_head_bodyNodes body, map_head_bodyNodes rest]
    rfl

end Node

namespace Source

variable {previous : Int} {rest : List Statement} {statement : Statement}

/-- Trees that nest statements as their levels say. -/
structure Nested (statements : List Statement) (trees : List Node) : Prop where
  /-- In source order their nodes have the statements for heads. -/
  heads : (Node.bodyNodes trees).map Node.head = statements
  /-- Every child is one level below its parent, and the trees are the children of the root. -/
  levels : ∀ node ∈ (Node.root trees).nodes, ∀ child ∈ node.body, child.depth = node.depth + 1
  /-- A node is a block, and not an empty one, just if the next statement is one level deeper. -/
  blocks : ∀ (i : Nat) (node : Node), (Node.bodyNodes trees)[i]? = some node →
    (node.IsBlock ↔ ∃ next, statements[i + 1]? = some next ∧ next.depth = node.depth + 1)
  /-- All other nodes are calls. -/
  calls : ∀ node ∈ Node.bodyNodes trees, ¬ node.IsBlock → node = .call node.head

section Nested

variable {statements : List Statement} {trees : List Node}

/-- Trees that nest statements start at the margin. -/
theorem Nested.layered (h : Nested statements trees) : Node.Layered 0 trees := by
  have hroot : (Node.root trees).nodes = .root trees :: Node.bodyNodes trees := rfl
  have hlevels := h.levels
  rw [hroot] at hlevels
  obtain ⟨htrees, hlevels⟩ := List.forall_mem_cons.mp hlevels
  exact Node.layered_of_ordered trees 0 htrees fun node hnode => ⟨hlevels node hnode, h.calls node hnode⟩

/-- Trees are determined by the statements they nest. -/
theorem Nested.unique (h : Nested statements trees) {others : List Node}
    (hothers : Nested statements others) : others = trees := by
  have hsame : Node.bodyStatements others = Node.bodyStatements trees := by
    rw [← Node.map_head_bodyNodes, ← Node.map_head_bodyNodes, hothers.heads, h.heads]
  have hleaves : Node.Leaves 0 [] := fun _ hnone => absurd hnone (Option.not_mem_none _)
  refine (hothers.layered.unique h.layered hleaves hleaves ?_).1
  rw [hsame]

/-- Trees layered from the top level nest their statements. -/
theorem nested_of_layered (h : Node.Layered 0 trees) : Nested (Node.bodyStatements trees) trees := by
  refine ⟨Node.map_head_bodyNodes trees, ?_, fun i node hnode => ?_,
    fun node hnode => (h.ordered node hnode).2.2⟩
  · have hroot : (Node.root trees).nodes = .root trees :: Node.bodyNodes trees := rfl
    rw [hroot]
    exact List.forall_mem_cons.mpr ⟨h.depth_of_mem, fun node hnode => (h.ordered node hnode).2.1⟩
  · obtain ⟨hlt, hget⟩ := List.getElem?_eq_some_iff.mp hnode
    have hsplit : Node.bodyNodes trees =
        (Node.bodyNodes trees).take i ++ node :: (Node.bodyNodes trees).drop (i + 1) := by
      rw [← hget, List.getElem_cons_drop, List.take_append_drop]
    -- At the end the level -1 follows, which no node has above it.
    have houtlined := h.outlined (show -1 ≤ (0 : Int) by decide)
    rw [hsplit, Node.outlined_append] at houtlined
    have hdepth := (h.ordered node (List.mem_of_getElem? hnode)).1
    rw [houtlined.2.1, Node.levelNext, List.head?_drop, ← Node.map_head_bodyNodes, List.getElem?_map]
    cases (Node.bodyNodes trees)[i + 1]? with
    | none =>
      simp only [Option.elim_none, Option.map_none, reduceCtorEq, false_and, exists_false, iff_false]
      omega
    | some next => simp [Node.depth]

end Nested

/-! ## The stack of open blocks -/

/-- Open blocks stand one level apart, from the level -1 of the root on, and what is in each of them is
layered one level deeper. -/
inductive Stacked : OpenBlock → List OpenBlock → Prop where
  | root {root} (level_eq : root.level = -1) (holds : Node.Layered (root.level + 1) root.body) :
    Stacked root []
  | inside {inner next outer} (level_eq : inner.level = next.level + 1)
      (holds : Node.Layered (inner.level + 1) inner.body) (around : Stacked next outer) :
    Stacked inner (next :: outer)

namespace Stacked

variable {inner next : OpenBlock} {outer : List OpenBlock}

/-- No open block has a lower level than the root. -/
theorem level_ge (h : Stacked inner outer) : -1 ≤ inner.level := by
  induction h with
  | root level_eq _ => omega
  | inside level_eq _ _ ih => omega

/-- An open block holds expressions of one level more. -/
theorem holds (h : Stacked inner outer) : Node.Layered (inner.level + 1) inner.body := by
  cases h <;> assumption

/-- A tree one level deeper may be put into the innermost block. -/
theorem add (h : Stacked inner outer) {tree : Node} (htree : Node.Layered (inner.level + 1) [tree]) :
    Stacked (inner.add tree) outer := by
  have hbody : (inner.add tree).body = inner.body ++ [tree] := by
    simp [OpenBlock.add, OpenBlock.body]
  have hholds : Node.Layered ((inner.add tree).level + 1) (inner.add tree).body :=
    hbody ▸ h.holds.append htree
  cases h with
  | root level_eq _ => exact .root level_eq hholds
  | inside level_eq _ around => exact .inside level_eq hholds around

/-- The innermost block may be closed if something is in it. -/
theorem close (h : Stacked inner (next :: outer)) (hsome : inner.trees ≠ []) :
    Stacked (next.add inner.close) outer := by
  cases h with
  | inside level_eq holds around =>
    have howns : inner.body ≠ [] := by simpa [OpenBlock.body] using hsome
    exact around.add (.block level_eq howns (level_eq ▸ holds) .nil)

/-- A level below the root that rises by one at most has a block to go into. The innermost one may be
closed for it unless nothing is in there yet. -/
theorem exists_closeTo (h : Stacked inner outer) {level : Int} (hdepth : 0 ≤ level)
    (hrise : level ≤ inner.level + 1) (hready : inner.trees ≠ [] ∨ level = inner.level + 1) :
    ∃ blocks, OpenBlocks.closeTo level inner outer = some blocks ∧
      Stacked blocks.inner blocks.outer ∧ level = blocks.inner.level + 1 := by
  induction outer generalizing inner with
  | nil =>
    have hroot : inner.level = -1 := by
      cases h
      assumption
    refine ⟨⟨inner, []⟩, ?_, h, by dsimp only; omega⟩
    rw [OpenBlocks.closeTo, if_neg (by omega)]
  | cons next outer ih =>
    rw [OpenBlocks.closeTo]
    by_cases hclose : level ≤ inner.level
    · rw [if_pos hclose]
      have hsome : inner.trees ≠ [] := hready.resolve_right (by omega)
      have hlevel : inner.level = (next.add inner.close).level + 1 := by
        cases h
        assumption
      exact ih (h.close hsome) (by omega) (.inl (List.cons_ne_nil _ _))
    · rw [if_neg hclose]
      exact ⟨⟨inner, next :: outer⟩, rfl, h, by dsimp only; omega⟩

/-- When all blocks are closed the trees are layered from the top level on. -/
theorem layered_finish (h : Stacked inner outer) (hready : inner.trees ≠ [] ∨ outer = []) :
    Node.Layered 0 (OpenBlocks.finish inner outer) := by
  induction outer generalizing inner with
  | nil =>
    cases h with
    | root level_eq holds =>
      rw [level_eq] at holds
      exact holds
  | cons next outer ih =>
    have hsome : inner.trees ≠ [] := hready.resolve_right (List.cons_ne_nil _ _)
    exact ih (h.close hsome) (.inl (List.cons_ne_nil _ _))

end Stacked

/-- Open blocks as they are after a statement at the level `previous`, before the rest. That statement
has just opened the innermost block, or it is in there and opens none. -/
structure Ready (previous : Int) (blocks : OpenBlocks) (rest : List Statement) : Prop where
  stacked : Stacked blocks.inner blocks.outer
  turn : (blocks.inner.level = previous ∧ (blocks.outer = [] ∨ levelAhead rest = previous + 1)) ∨
    (blocks.inner.level + 1 = previous ∧ blocks.inner.trees ≠ [] ∧ levelAhead rest ≠ previous + 1)

namespace Ready

variable {previous : Int} {blocks : OpenBlocks} {statement : Statement} {rest : List Statement}

/-- At first the source itself is open. -/
theorem start (statements : List Statement) : Ready (-1) .start statements :=
  ⟨.root rfl .nil, .inl ⟨rfl, .inl rfl⟩⟩

/-- The innermost block tells a jump as the statement before does. -/
theorem jump_iff (h : Ready previous blocks (statement :: rest)) :
    blocks.inner.level + 1 < statement.depth ↔ previous + 1 < statement.depth := by
  have hahead : levelAhead (statement :: rest) = statement.depth := rfl
  rcases h.turn with ⟨hlevel, _⟩ | ⟨hlevel, _, hnext⟩
  · rw [hlevel]
  · omega

/-- A statement that rises by one at most is put into a block. -/
theorem step (h : Ready previous blocks (statement :: rest)) (hdepth : 0 ≤ statement.depth)
    (hrise : statement.depth ≤ previous + 1) :
    ∃ after, nestFrom previous blocks (statement :: rest) = nestFrom statement.depth after rest ∧
      Ready statement.depth after rest := by
  have hjump : ¬ blocks.inner.level + 1 < statement.depth := by
    rw [h.jump_iff]
    omega
  have hready : blocks.inner.trees ≠ [] ∨ statement.depth = blocks.inner.level + 1 := by
    have hlow := h.stacked.level_ge
    have hahead : levelAhead (statement :: rest) = statement.depth := rfl
    rcases h.turn with ⟨hlevel, hroot | hnext⟩ | ⟨_, hsome, _⟩
    · have hstacked := h.stacked
      rw [hroot] at hstacked
      cases hstacked with
      | root level_eq _ => exact .inr (by omega)
    · exact .inr (by omega)
    · exact .inl hsome
  obtain ⟨closed, hclosed, hstacked, hlevel⟩ := h.stacked.exists_closeTo hdepth (by omega) hready
  refine ⟨closed.put statement (levelAhead rest == statement.depth + 1), ?_, ?_⟩
  · rw [nestFrom, if_neg hjump, hclosed]
  · by_cases howns : levelAhead rest = statement.depth + 1
    · rw [beq_iff_eq.mpr howns]
      exact ⟨.inside hlevel .nil hstacked, .inl ⟨rfl, .inr howns⟩⟩
    · rw [beq_false_of_ne howns]
      refine ⟨hstacked.add (.call hlevel .nil), .inr ⟨hlevel.symm, List.cons_ne_nil _ _, howns⟩⟩

/-- At the end all blocks can be closed. -/
theorem layered_finish (h : Ready previous blocks []) :
    Node.Layered 0 (OpenBlocks.finish blocks.inner blocks.outer) := by
  refine h.stacked.layered_finish ?_
  have hlow := h.stacked.level_ge
  have hahead : levelAhead [] = -1 := rfl
  rcases h.turn with ⟨hlevel, hroot | hnext⟩ | ⟨_, hsome, _⟩
  · exact .inr hroot
  · omega
  · exact .inl hsome

end Ready

/-! ## Well-indented statements -/

/-- The first statement is at the top level, and every later one is at most one level deeper than the
statement before it. -/
structure WellIndented (statements : List Statement) : Prop where
  first : ∀ statement ∈ statements.head?, statement.depth = 0
  rises : statements.IsChain fun previous statement => statement.depth ≤ previous.depth + 1

/-- Behind a level, the levels of statements rise by one at most. -/
def RisesFrom (previous : Int) (statements : List Statement) : Prop :=
  (previous :: statements.map Statement.depth).IsChain fun a b => b ≤ a + 1

/-- The level of the last statement; if there is none, the level before. -/
def lastLevel (previous : Int) (statements : List Statement) : Int :=
  statements.getLast?.elim previous Statement.depth

/-- Levels rise by one at most from each statement to the next. -/
theorem risesFrom_cons :
    RisesFrom previous (statement :: rest) ↔
      statement.depth ≤ previous + 1 ∧ RisesFrom statement.depth rest :=
  List.isChain_cons_cons

/-- The last level is that of the last statement. -/
theorem lastLevel_cons (previous : Int) (statement : Statement) (rest : List Statement) :
    lastLevel previous (statement :: rest) = lastLevel statement.depth rest := by
  rw [lastLevel, lastLevel, List.getLast?_cons]
  cases rest.getLast? <;> rfl

/-- Counted from the level above the top, all levels of well-indented statements rise by one at most. -/
theorem wellIndented_iff {statements : List Statement} (h : ∀ s ∈ statements, 0 ≤ s.depth) :
    WellIndented statements ↔ RisesFrom (-1) statements := by
  cases statements with
  | nil =>
    refine iff_of_true ⟨?_, List.isChain_nil⟩ (List.isChain_singleton _)
    exact fun _ hnone => absurd hnone (Option.not_mem_none _)
  | cons statement rest =>
    obtain ⟨hdepth, _⟩ := List.forall_mem_cons.mp h
    rw [risesFrom_cons, RisesFrom, ← List.map_cons, List.isChain_map]
    constructor
    · intro hindented
      have hfirst := hindented.first statement rfl
      exact ⟨by omega, hindented.rises⟩
    · rintro ⟨hfirst, hrises⟩
      refine ⟨fun first hmem => ?_, hrises⟩
      obtain rfl : statement = first := Option.some.inj hmem
      omega

/-- A statement that rises by more than one spoils the list it is in. -/
theorem not_risesFrom_append {front : List Statement}
    (hjump : lastLevel previous front + 1 < statement.depth) (back : List Statement) :
    ¬ RisesFrom previous (front ++ statement :: back) := by
  induction front generalizing previous with
  | nil =>
    rw [List.nil_append, risesFrom_cons]
    have hjump : previous + 1 < statement.depth := hjump
    omega
  | cons first front ih =>
    rw [lastLevel_cons] at hjump
    rw [List.cons_append, risesFrom_cons]
    exact fun hrises => ih hjump hrises.2

/-- Statements are nested in layers if their levels rise by one at most. Otherwise the first that rises
by more is to blame. -/
theorem nestFrom_cases {blocks : OpenBlocks} (h : Ready previous blocks rest)
    (hdepths : ∀ s ∈ rest, 0 ≤ s.depth) :
    (RisesFrom previous rest ∧ ∃ last, nestFrom previous blocks rest = .ok last ∧
      Node.Layered 0 (OpenBlocks.finish last.inner last.outer)) ∨
    ∃ front statement back, rest = front ++ statement :: back ∧ RisesFrom previous front ∧
      lastLevel previous front + 1 < statement.depth ∧
        nestFrom previous blocks rest = .error (.jump (lastLevel previous front) statement) := by
  induction rest generalizing previous blocks with
  | nil => exact .inl ⟨List.isChain_singleton _, blocks, rfl, h.layered_finish⟩
  | cons statement rest ih =>
    obtain ⟨hdepth, hdepths⟩ := List.forall_mem_cons.mp hdepths
    by_cases hjump : previous + 1 < statement.depth
    · refine .inr ⟨[], statement, rest, rfl, List.isChain_singleton _, hjump, ?_⟩
      rw [nestFrom, if_pos (h.jump_iff.mpr hjump)]
      rfl
    · have hrise : statement.depth ≤ previous + 1 := Int.not_lt.mp hjump
      obtain ⟨after, hstep, hready⟩ := h.step hdepth hrise
      rw [hstep]
      rcases ih hready hdepths with ⟨hrises, hlast⟩ | ⟨front, culprit, back, rfl, hfront, hculprit, herror⟩
      · exact .inl ⟨risesFrom_cons.mpr ⟨hrise, hrises⟩, hlast⟩
      · refine .inr ⟨statement :: front, culprit, back, rfl, risesFrom_cons.mpr ⟨hrise, hfront⟩, ?_, ?_⟩
        · rwa [lastLevel_cons]
        · rwa [lastLevel_cons]

/-- Statements below the root can be nested just if they are well indented. If they are not, the first
statement that is too deep is to blame; the root is never closed. The trees nest the statements as
their levels say, and no others do. -/
theorem nesting_follows_levels (statements : List Statement) (hdepths : ∀ s ∈ statements, 0 ≤ s.depth) :
    ((∃ trees, nest statements = .ok trees) ↔ WellIndented statements) ∧
      (∀ misplaced, nest statements = .error misplaced →
        ∃ front statement back fault, statements = front ++ statement :: back ∧ WellIndented front ∧
          ¬ WellIndented (front ++ [statement]) ∧ misplaced.failure = .fault fault ∧
            fault.kind = .blockLevel ∧ fault.token = some statement.head ∧
              fault.line = some statement) ∧
      (∀ statement, nest statements ≠ .error (.uprooted statement)) ∧
      ∀ trees, nest statements = .ok trees →
        Nested statements trees ∧ ∀ others, Nested statements others → others = trees := by
  rcases nestFrom_cases (Ready.start statements) hdepths with
    ⟨hrises, last, hlast, hlayered⟩ | ⟨front, statement, back, hsplit, hfront, hjump, herror⟩
  · have hnest : nest statements = .ok (OpenBlocks.finish last.inner last.outer) := by
      rw [nest, hlast]
      rfl
    have hnested : Nested statements (OpenBlocks.finish last.inner last.outer) :=
      bodyStatements_of_nest hnest ▸ nested_of_layered hlayered
    rw [hnest]
    refine ⟨iff_of_true ⟨_, rfl⟩ ((wellIndented_iff hdepths).mpr hrises), nofun, nofun, ?_⟩
    rintro trees htrees
    cases htrees
    exact ⟨hnested, fun others hothers => hnested.unique hothers⟩
  · have hnest : nest statements = .error (.jump (lastLevel (-1) front) statement) := by
      rw [nest, herror]
      rfl
    subst hsplit
    obtain ⟨hfrontDepths, hbackDepths⟩ := List.forall_mem_append.mp hdepths
    have hdepth := hbackDepths statement List.mem_cons_self
    have hindented : WellIndented front := (wellIndented_iff hfrontDepths).mpr hfront
    have hspoiled : ¬ WellIndented (front ++ [statement]) := by
      rw [wellIndented_iff (List.forall_mem_append.mpr ⟨hfrontDepths, by simpa using hdepth⟩)]
      exact not_risesFrom_append hjump []
    rw [hnest, wellIndented_iff hdepths]
    refine ⟨iff_of_false nofun (not_risesFrom_append hjump back), ?_, nofun, nofun⟩
    rintro misplaced hmisplaced
    cases hmisplaced
    exact ⟨front, statement, back, _, rfl, hindented, hspoiled, rfl, rfl, rfl, rfl⟩

/-- Statements at some levels. -/
def outline (levels : List Int) : List Statement :=
  levels.map fun level => { line := 1, depth := level, head := ⟨1, 0, "w"⟩, args := [], source := [] }

/-- Levels that drop by two at once can be nested, and in one way only; in other levels the second
statement is too deep. -/
theorem nesting_follows_levels_stairs :
    (∀ s ∈ outline [0, 1, 2, 0, 1], 0 ≤ s.depth) ∧ (∀ s ∈ outline [0, 2, 1], 0 ≤ s.depth) ∧
      (∃ trees, nest (outline [0, 1, 2, 0, 1]) = .ok trees ∧ Nested (outline [0, 1, 2, 0, 1]) trees ∧
        ∀ others, Nested (outline [0, 1, 2, 0, 1]) others → others = trees) ∧
      ¬ ∃ trees, nest (outline [0, 2, 1]) = .ok trees := by
  have hstairs : ∀ s ∈ outline [0, 1, 2, 0, 1], 0 ≤ s.depth := by decide
  have hcliff : ∀ s ∈ outline [0, 2, 1], 0 ≤ s.depth := by decide
  have hindented : WellIndented (outline [0, 1, 2, 0, 1]) := ⟨by decide, by decide⟩
  have hspoiled : ¬ WellIndented (outline [0, 2, 1]) := fun h => absurd h.rises (by decide)
  obtain ⟨hok, _, _, htrees⟩ := nesting_follows_levels _ hstairs
  obtain ⟨hnone, _⟩ := nesting_follows_levels _ hcliff
  obtain ⟨trees, hnest⟩ := hok.mpr hindented
  exact ⟨hstairs, hcliff, ⟨trees, hnest, htrees trees hnest⟩, fun hsome => hspoiled (hnone.mp hsome)⟩

end Source

end Tapestry

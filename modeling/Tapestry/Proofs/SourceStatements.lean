import Tapestry.Splice
import Tapestry.Source.Nesting
import Tapestry.Proofs.ScopeContents

/-!
# The statements of a source

Nesting statements into trees and marking splice points lose no statement and keep their order.
Each statement knows where it stands: its function word is on its line, lines count from 1, and
the column of a word is less than the length of its line.
-/

namespace Tapestry

namespace Node

/-- The statements of two bodies in a row. -/
theorem bodyStatements_append (front back : List Node) :
    bodyStatements (front ++ back) = bodyStatements front ++ bodyStatements back := by
  induction front with
  | nil => rfl
  | cons node rest ih => simp [bodyStatements, ih]

/-- The head of a node is one of its statements. -/
theorem head_mem_statements (node : Node) : node.head ∈ node.statements := by
  cases node <;> simp [head, statements]

/-- The statements of a node are among those of the body it belongs to. -/
theorem statements_subset_of_mem {node : Node} {body : List Node} (h : node ∈ body) :
    node.statements ⊆ bodyStatements body := by
  induction body with
  | nil => cases h
  | cons first rest ih =>
    rcases List.mem_cons.mp h with rfl | hrest
    · exact List.subset_append_left _ _
    · exact List.Subset.trans (ih hrest) (List.subset_append_right _ _)

/-- The statements a node owns are among its own. -/
theorem bodyStatements_body_subset (node : Node) : bodyStatements node.body ⊆ node.statements := by
  cases node with
  | block head body => exact List.subset_cons_self _ _
  | call head => simp [body, bodyStatements]
  | splice head owner => simp [body, bodyStatements]

mutual

/-- Marking a node keeps its statements. -/
theorem statements_of_mark {owner : Text} :
    ∀ {node marked : Node}, node.mark owner = .ok marked → marked.statements = node.statements
  | .call head, marked, h => by
    simp only [mark] at h
    split at h
    case isTrue =>
      split at h
      case h_1 =>
        cases h
        rfl
      case h_2 => cases h
    case isFalse =>
      cases h
      rfl
  | .block head body, marked, h => by
    simp only [mark] at h
    split at h
    case isTrue => cases h
    case isFalse =>
      split at h
      case isTrue =>
        cases h
        rfl
      case isFalse =>
        obtain ⟨inner, hinner, rfl⟩ := exists_of_map_eq_ok h
        simp [statements, bodyStatements_of_markAll hinner]
  | .splice head other, marked, h => by
    cases h
    rfl

/-- Marking a body keeps its statements. -/
theorem bodyStatements_of_markAll {owner : Text} :
    ∀ {body marked : List Node}, markAll owner body = .ok marked →
      bodyStatements marked = bodyStatements body
  | [], marked, h => by
    cases h
    rfl
  | node :: rest, marked, h => by
    obtain ⟨first, hfirst, h⟩ := exists_of_bind_eq_ok h
    obtain ⟨others, hothers, rfl⟩ := exists_of_map_eq_ok h
    simp [bodyStatements, statements_of_mark hfirst, bodyStatements_of_markAll hothers]

end

end Node

/-- Where the function word of a statement stands. -/
structure Statement.Placed (statement : Statement) : Prop where
  line_eq : statement.head.line = statement.line
  line_pos : 0 < statement.line
  column_nonneg : 0 ≤ statement.head.column
  column_lt : statement.head.column < Lines.limit

namespace Source

variable {text line : Text} {number : Int} {statement : Statement}

/-- A tree put into a block brings its statements behind those in the block. -/
theorem bodyStatements_add (block : OpenBlock) (tree : Node) :
    Node.bodyStatements (block.add tree).body =
      Node.bodyStatements block.body ++ tree.statements := by
  simp [OpenBlock.add, OpenBlock.body, Node.bodyStatements_append, Node.bodyStatements]

namespace OpenBlocks

/-- The statements in open blocks, in order. The head of the root is not a statement. -/
def statements : OpenBlock → List OpenBlock → List Statement
  | root, [] => Node.bodyStatements root.body
  | inner, next :: outer => statements next outer ++ inner.head :: Node.bodyStatements inner.body

/-- A tree that is added brings its statements. -/
theorem statements_add (inner : OpenBlock) (outer : List OpenBlock) (tree : Node) :
    statements (inner.add tree) outer = statements inner outer ++ tree.statements := by
  cases outer with
  | nil => simp only [statements, bodyStatements_add]
  | cons next outer =>
    simp only [statements, bodyStatements_add, List.append_assoc, List.cons_append]
    rfl

/-- Closing a block keeps the statements. -/
theorem statements_close (inner next : OpenBlock) (outer : List OpenBlock) :
    statements (next.add inner.close) outer = statements inner (next :: outer) := by
  rw [statements_add, statements, OpenBlock.close, Node.statements]

/-- Closing blocks loses no statement. -/
theorem statements_closeTo {level : Int} {outer : List OpenBlock} {inner : OpenBlock}
    {blocks : OpenBlocks} (h : closeTo level inner outer = some blocks) :
    statements blocks.inner blocks.outer = statements inner outer := by
  induction outer generalizing inner with
  | nil =>
    rw [closeTo] at h
    split at h
    case isTrue => cases h
    case isFalse =>
      cases h
      rfl
  | cons next outer ih =>
    rw [closeTo] at h
    split at h
    case isTrue => rw [ih h, statements_close]
    case isFalse =>
      cases h
      rfl

/-- A statement that is put stands behind the others. -/
theorem statements_put (blocks : OpenBlocks) (statement : Statement) (owns : Bool) :
    statements (blocks.put statement owns).inner (blocks.put statement owns).outer =
      statements blocks.inner blocks.outer ++ [statement] := by
  cases owns with
  | true => rfl
  | false => exact statements_add blocks.inner blocks.outer (.call statement)

/-- What is finished has all statements in their order. -/
theorem bodyStatements_finish (outer : List OpenBlock) (inner : OpenBlock) :
    Node.bodyStatements (finish inner outer) = statements inner outer := by
  induction outer generalizing inner with
  | nil => rfl
  | cons next outer ih => rw [finish, ih, statements_close]

end OpenBlocks

/-- Nesting puts the statements behind those in the open blocks. -/
theorem statements_of_nestFrom {rest : List Statement} {previous : Int} {blocks last : OpenBlocks}
    (h : nestFrom previous blocks rest = .ok last) :
    OpenBlocks.statements last.inner last.outer =
      OpenBlocks.statements blocks.inner blocks.outer ++ rest := by
  induction rest generalizing previous blocks with
  | nil =>
    cases h
    rw [List.append_nil]
  | cons statement rest ih =>
    rw [nestFrom] at h
    split at h
    case isTrue => cases h
    case isFalse =>
      split at h
      case h_1 => cases h
      case h_2 closed hclosed =>
        rw [ih h, OpenBlocks.statements_put, OpenBlocks.statements_closeTo hclosed,
          List.append_assoc, List.singleton_append]

/-- Nesting keeps the statements and their order. -/
theorem bodyStatements_of_nest {statements : List Statement} {trees : List Node}
    (h : nest statements = .ok trees) : Node.bodyStatements trees = statements := by
  obtain ⟨last, hlast, rfl⟩ := exists_of_map_eq_ok h
  rw [OpenBlocks.bodyStatements_finish, statements_of_nestFrom hlast]
  rfl

/-- A parsed text has the statements of its lines. -/
theorem statements_of_parse {body : List Node} (h : parse text = .ok body) :
    statements text = .ok (Node.bodyStatements body) := by
  obtain ⟨lines, hlines, h⟩ := exists_of_bind_eq_ok h
  cases hnest : nest lines with
  | error misplaced =>
    rw [hnest] at h
    cases h
  | ok trees =>
    rw [hnest] at h
    cases h
    rw [hlines, bodyStatements_of_nest hnest]

/-- Splitting a list leaves its own members, but none that it is split at. -/
theorem of_mem_splitOnP {α : Type} {p : α → Bool} {l run : List α} (hrun : run ∈ l.splitOnP p)
    {a : α} (ha : a ∈ run) : a ∈ l ∧ p a = false := by
  induction l generalizing run with
  | nil =>
    obtain rfl : run = [] := by simpa using hrun
    cases ha
  | cons first rest ih =>
    have hlater {run : List α} (hrun : run ∈ rest.splitOnP p) (ha : a ∈ run) :
        a ∈ first :: rest ∧ p a = false :=
      ⟨List.mem_cons_of_mem first (ih hrun ha).1, (ih hrun ha).2⟩
    rw [List.splitOnP_cons_eq_if_modifyHead] at hrun
    split at hrun
    case isTrue =>
      rcases List.mem_cons.mp hrun with rfl | hrun
      · cases ha
      · exact hlater hrun ha
    case isFalse hfirst =>
      obtain ⟨front, others, hsplit⟩ := List.exists_cons_of_ne_nil (List.splitOnP_ne_nil p rest)
      rw [hsplit, List.modifyHead_cons] at hrun
      rcases List.mem_cons.mp hrun with rfl | hrun
      · rcases List.mem_cons.mp ha with rfl | ha
        · exact ⟨List.mem_cons_self, by simpa using hfirst⟩
        · exact hlater (by simp [hsplit]) ha
      · exact hlater (by simp [hsplit, hrun]) ha

/-- A word starts within its line. -/
theorem lt_length_of_mem_words {word : Text} {column : Nat} (h : (column, word) ∈ words line) :
    column < line.length := by
  obtain ⟨run, hrun, hword⟩ := List.mem_filterMap.mp h
  obtain ⟨⟨byte, start⟩, hfirst, heq⟩ := Option.map_eq_some_iff.mp hword
  obtain ⟨rfl, _⟩ := Prod.mk.inj heq
  obtain ⟨hmem, _⟩ := of_mem_splitOnP hrun (List.mem_of_mem_head? hfirst)
  exact (List.mem_zipIdx' hmem).1

/-- A token of a line carries its number and starts within it. -/
theorem placed_of_mem_tokens {token : Token} (h : token ∈ tokens number line) :
    token.line = number ∧ 0 ≤ token.column ∧ token.column < line.length := by
  obtain ⟨⟨column, word⟩, hword, rfl⟩ := List.mem_map.mp h
  have hcolumn := lt_length_of_mem_words ((List.takeWhile_subset _) hword)
  exact ⟨rfl, Int.natCast_nonneg column, Int.ofNat_lt.mpr hcolumn⟩

/-- The statement of a line carries its number and starts within it. -/
theorem placed_of_readLine (h : readLine number text = .ok (some statement)) :
    statement.line = number ∧ statement.head.line = number ∧ 0 ≤ statement.head.column ∧
      statement.head.column < text.length := by
  unfold readLine at h
  dsimp only at h
  split at h
  case h_1 => cases h
  case h_2 head args htokens =>
    split at h
    case isTrue =>
      obtain rfl := Option.some.inj (Except.ok.inj h)
      have hhead : head ∈ tokens number (Text.dropRight isTrailing text) := by simp [htokens]
      obtain ⟨hline, hnonneg, hlt⟩ := placed_of_mem_tokens hhead
      have hshorter : (Text.dropRight isTrailing text).length ≤ text.length := by
        have hsublist : (text.reverse.dropWhile isTrailing).Sublist text.reverse :=
          List.dropWhile_sublist isTrailing
        simpa [Text.dropRight] using hsublist.length_le
      exact ⟨rfl, hline, hnonneg, Int.lt_of_lt_of_le hlt (Int.ofNat_le.mpr hshorter)⟩
    case isFalse => cases h

/-- No line read fills the line buffer. -/
theorem length_lt_of_mem_lines (h : line ∈ (Lines.read text).lines) :
    line.length < Lines.limit := by
  obtain ⟨piece, hpiece, rfl⟩ := List.mem_map.mp h
  have hshort : piece.length < Lines.limit := by
    simpa using List.all_eq_true.mp List.all_takeWhile piece hpiece
  unfold Lines.dropReturn
  split
  · rw [List.length_dropLast]
    omega
  · exact hshort

/-- Every statement of a text knows where it stands. -/
theorem placed_of_mem_statements {lines : List Statement} (h : statements text = .ok lines)
    (hmem : statement ∈ lines) : statement.Placed := by
  unfold statements at h
  split at h
  case h_2 => cases h
  case h_1 =>
    cases h
    obtain ⟨result, hresult, heq⟩ := List.mem_filterMap.mp hmem
    obtain ⟨⟨line, number⟩, hline, rfl⟩ := List.mem_map.mp (List.takeWhile_subset _ hresult)
    split at heq
    case h_1 found hread =>
      obtain rfl : found = some statement := heq
      obtain ⟨hnumber, hhead, hnonneg, hlt⟩ := placed_of_readLine hread
      have hlength : line.length < Lines.limit :=
        length_lt_of_mem_lines (List.fst_mem_of_mem_zipIdx hline)
      have hfirst := List.le_snd_of_mem_zipIdx hline
      exact ⟨hhead.trans hnumber.symm, by omega, hnonneg, by omega⟩
    case h_2 => cases heq

end Source

end Tapestry

import Tapestry.Proofs.SourceReading

/-!
# Printed trees read back

A parsed unit is printed with one line for each statement, four spaces for each level in front. The
lines are no longer than those of the source, and each of them is read as the statement it was
printed from. The levels are as they were, so the trees are too.

A carriage return at the end of a word would be taken for part of a line end. Without carriage
returns in the source there is no such word.
-/

namespace Tapestry

/-- The line that a statement is printed as. -/
def Statement.written (statement : Statement) : Text :=
  Source.writeLine statement.depth (statement.tokens.map Token.text)

/-- A statement whose printed line is read as the statement again. -/
structure Statement.Printable (statement : Statement) : Prop where
  depth_nonneg : 0 ≤ statement.depth
  words : ∀ text ∈ statement.tokens.map Token.text, Source.IsWord text
  /-- No word holds a line feed or a carriage return. -/
  inline : ∀ text ∈ statement.tokens.map Token.text, 10 ∉ text ∧ 13 ∉ text
  short : statement.written.length < Lines.limit

/-- The statement that the root of a unit is printed as. -/
def Statement.printedRoot : Statement := { Statement.root with depth := 0 }

/-! ## The lines of a printed unit -/

namespace Node

/-- Layered trees are printed with one line for each statement. -/
theorem Layered.bodyLines_eq {level : Int} {trees : List Node} (h : Layered level trees) :
    bodyLines trees = (bodyStatements trees).map Statement.written := by
  induction h with
  | nil => rfl
  | call _ _ ih =>
    rw [bodyStatements_call, List.map_cons, ← ih]
    rfl
  | block _ _ _ _ ihInside ihRest =>
    rw [bodyStatements_block, List.map_cons, List.map_append, ← ihInside, ← ihRest]
    rfl

/-- A unit is printed as its root and its statements. -/
theorem Layered.lines_root {trees : List Node} (h : Layered 0 trees) :
    (root trees).lines = (Statement.printedRoot :: bodyStatements trees).map Statement.written := by
  rw [List.map_cons, ← h.bodyLines_eq]
  rfl

end Node

namespace Source

/-- Lines are joined with line feeds, and one more ends the last. -/
theorem unlines_eq {lines : List Text} (hsome : lines ≠ []) :
    Text.unlines lines = Text.join "\n" lines ++ [10] := by
  induction lines with
  | nil => exact absurd rfl hsome
  | cons first rest ih =>
    cases rest with
    | nil =>
      rw [Text.unlines, Text.join, List.intercalate_singleton, List.flatMap_singleton]
      rfl
    | cons next rest =>
      have hrest := ih (List.cons_ne_nil _ _)
      rw [join_cons_cons, List.append_assoc, List.append_assoc, ← hrest]
      simp [Text.unlines]

/-- A line that can stand between line feeds and is read as it stands. -/
structure IsLine (line : Text) : Prop where
  nonempty : line ≠ []
  inline : ∀ b ∈ line, b ≠ 10 ∧ b ≠ 13
  short : line.length < Lines.limit

section Joined

variable {lines : List Text}

/-- Only the last of the line feeds behind lines is dropped. -/
theorem dropRight_unlines (h : ∀ line ∈ lines, IsLine line) (hsome : lines ≠ []) :
    Text.dropRight (· == 10) (Text.unlines lines) = Text.join "\n" lines := by
  have hlast : Text.dropRight (· == 10) (Text.join "\n" lines) = Text.join "\n" lines := by
    apply dropRight_eq_self
    intro b hb
    obtain ⟨line, hline, hmem⟩ :=
      exists_mem_of_getLast?_join "\n" (fun line hline => (h line hline).nonempty) hb
    simpa using ((h line hline).inline b hmem).1
  rw [unlines_eq hsome]
  exact (List.rdropWhile_concat_pos _ _ _ rfl).trans hlast

/-- Lines with line feeds between them are read as these lines. -/
theorem read_join (h : ∀ line ∈ lines, IsLine line) (hsome : lines ≠ []) :
    Lines.read (Text.join "\n" lines) = ⟨lines, false⟩ := by
  have hsplit : (Text.join "\n" lines).splitOn 10 = lines :=
    List.splitOn_intercalate 10 (fun line hline hmem => ((h line hline).inline 10 hmem).1 rfl) hsome
  have hpieces : Lines.pieces (Text.join "\n" lines) = lines := by
    rw [Lines.pieces, hsplit]
    refine if_neg fun hlast => ?_
    exact (h [] (List.mem_of_getLast? hlast)).nonempty rfl
  have hshort : lines.takeWhile (fun line => decide (line.length < Lines.limit)) = lines :=
    List.takeWhile_eq_self_iff.mpr fun line hline => by simpa using (h line hline).short
  have hreturn : lines.map Lines.dropReturn = lines := by
    have hline : ∀ line ∈ lines, Lines.dropReturn line = id line := fun line hline =>
      if_neg fun hlast => ((h line hline).inline 13 (List.mem_of_getLast? hlast)).2 rfl
    rw [List.map_congr_left hline, List.map_id]
  rw [Lines.read, hpieces, hshort, hreturn]
  simp

end Joined

/-! ## Statements read back -/

/-- The line of a printable statement is read as it stands. -/
theorem isLine_written {statement : Statement} (h : statement.Printable) : IsLine statement.written where
  nonempty := by
    intro hnil
    have hnone := (List.append_eq_nil_iff.mp hnil).2
    exact join_ne_nil " " (h.words _ List.mem_cons_self).nonempty _ hnone
  inline := by
    intro b hb
    rw [Statement.written, writeLine, indent_eq] at hb
    have hbytes : b = 32 ∨ ∃ text ∈ statement.tokens.map Token.text, b ∈ text := by
      rcases List.mem_append.mp hb with hspace | hjoin
      · exact .inl (List.eq_of_mem_replicate hspace)
      · exact (mem_join hjoin).imp_left List.mem_singleton.mp
    rcases hbytes with rfl | ⟨text, htext, hmem⟩
    · decide
    · obtain ⟨hfeed, hreturn⟩ := h.inline text htext
      exact ⟨fun heq => hfeed (heq ▸ hmem), fun heq => hreturn (heq ▸ hmem)⟩
  short := h.short

/-- The lines of printable statements are read as these statements, but for their places. -/
theorem readFrom_written {printed : List Statement} (h : ∀ s ∈ printed, s.Printable) (number : Nat) :
    ∃ again, readFrom number (printed.map Statement.written) = .ok again ∧
      again.map Statement.unplaced = printed.map Statement.unplaced := by
  induction printed generalizing number with
  | nil => exact ⟨[], rfl, rfl⟩
  | cons statement rest ih =>
    obtain ⟨hfirst, hrest⟩ := List.forall_mem_cons.mp h
    obtain ⟨first, hread, hdepth, hwords⟩ := readLine_writeLine (number : Nat) hfirst.depth_nonneg
      hfirst.words (List.cons_ne_nil _ _) fun text htext => (hfirst.inline text htext).2
    obtain ⟨later, hlater, hsame⟩ := ih hrest (number + 1)
    refine ⟨first :: later, ?_, ?_⟩
    · rw [List.map_cons, readFrom, Statement.written, hread, hlater]
      rfl
    · rw [List.map_cons, List.map_cons, hsame, Statement.unplaced_eq hdepth hwords]

/-- The lines of a text have its bytes, but no line feeds. -/
theorem of_mem_line {text line : Text} (h : line ∈ (Lines.read text).lines) :
    ∀ b ∈ line, b ∈ text ∧ b ≠ 10 := by
  intro b hb
  obtain ⟨piece, hpiece, rfl⟩ := List.mem_map.mp h
  have hsplit : piece ∈ text.splitOn 10 := by
    have hpieces := List.takeWhile_subset _ hpiece
    unfold Lines.pieces at hpieces
    dsimp only at hpieces
    split at hpieces
    · exact List.dropLast_subset _ hpieces
    · exact hpieces
  have hmem : b ∈ piece := by
    unfold Lines.dropReturn at hb
    split at hb
    · exact List.dropLast_subset _ hb
    · exact hb
  obtain ⟨htext, hfeed⟩ := of_mem_splitOnP hsplit hmem
  exact ⟨htext, by simpa using hfeed⟩

/-- The statements of a source without carriage returns can be printed. -/
theorem printable_of_statements {text : Text} {found : List Statement} (hreturn : 13 ∉ text)
    (h : statements text = .ok found) : ∀ s ∈ found, s.Printable := by
  intro s hs
  obtain ⟨_, line, hget, hread⟩ := exists_readLine_of_mem (statements_eq_ok_iff.mp h).1 hs
  have hline := List.mem_of_getElem? hget
  obtain ⟨hwords, hindented, hdepth⟩ := words_of_readLine hread
  have hfront : Text.dropRight isTrailing line <+: line := List.rdropWhile_prefix isTrailing line
  refine ⟨?_, ?_, ?_, ?_⟩
  · rw [hdepth]
    exact Int.natCast_nonneg _
  · rw [hwords]
    exact fun text htext => (isWord_of_mem_lineWords htext).1
  · rw [hwords]
    intro word hword
    have hbytes : ∀ b ∈ word, b ∈ text ∧ b ≠ 10 := fun b hb =>
      of_mem_line hline b (hfront.subset ((isWord_of_mem_lineWords hword).2 hb))
    exact ⟨fun hfeed => (hbytes 10 hfeed).2 rfl, fun hmem => hreturn (hbytes 13 hmem).1⟩
  · have hsome : lineWords (Text.dropRight isTrailing line) ≠ [] := by
      rw [← hwords]
      exact List.cons_ne_nil _ _
    have hlength := length_writeLine_le hindented hsome
    rw [← hdepth, ← hwords] at hlength
    exact Nat.lt_of_le_of_lt (Nat.le_trans hlength hfront.length_le) (length_lt_of_mem_lines hline)

/-- The root can be printed. -/
theorem printable_printedRoot : Statement.printedRoot.Printable where
  depth_nonneg := by decide
  words := by
    intro text htext
    obtain rfl := List.mem_singleton.mp htext
    have hsolid : Statement.printedRoot.head.text.all (fun b => !Byte.isBlank b) = true := by decide
    refine ⟨by decide, fun b hb => ?_, by decide⟩
    simpa using List.all_eq_true.mp hsolid b hb
  inline := by decide
  short := by decide

/-- A parsed source, printed and parsed again, has a statement for its root and then its trees, the
same in shape, levels and words. -/
theorem printed_trees_read_back {text : Text} {body : List Node} (hreturn : 13 ∉ text)
    (h : parse text = .ok body) :
    ∃ main back, parse (Node.root body).render = .ok (.call main :: back) ∧
      main.head.text = Text.ofString "__main" ∧ main.args = [] ∧
        Node.bodyUnplaced back = Node.bodyUnplaced body := by
  obtain ⟨hstatements, hrises, hlayered⟩ := of_parse h
  have hprintable : ∀ s ∈ Statement.printedRoot :: Node.bodyStatements body, s.Printable :=
    List.forall_mem_cons.mpr ⟨printable_printedRoot, printable_of_statements hreturn hstatements⟩
  have hlines : ∀ line ∈ (Node.root body).lines, IsLine line := by
    rw [hlayered.lines_root]
    exact List.forall_mem_map.mpr fun s hs => isLine_written (hprintable s hs)
  have hsome : (Node.root body).lines ≠ [] := List.cons_ne_nil _ _
  obtain ⟨again, hread, hsame⟩ := readFrom_written hprintable 1
  have hagain : statements (Node.root body).render = .ok again := by
    rw [statements_eq_ok_iff, Node.render, dropRight_unlines hlines hsome, read_join hlines hsome,
      hlayered.lines_root]
    exact ⟨hread, rfl⟩
  -- The root is printed at the top level, where the first statement of the source stands too.
  have hrisesAgain : RisesFrom (-1) again := by
    refine RisesFrom.of_unplaced ?_ hsame
    exact risesFrom_cons.mpr ⟨by decide, hrises.of_le (by decide)⟩
  have hroot : Node.Layered 0 (.call .printedRoot :: body) := .call rfl hlayered
  rcases parse_cases hagain with ⟨_, trees, htrees, hlayeredTrees, htreesEq⟩ | ⟨_, _, back, rfl, _, hjump, _⟩
  · have hunplaced : Node.bodyUnplaced trees = Node.bodyUnplaced (.call .printedRoot :: body) := by
      apply hlayeredTrees.unplaced_unique hroot
      rw [htreesEq, hsame]
      rfl
    cases trees with
    | nil => cases hunplaced
    | cons tree back =>
      obtain ⟨hmain, hback⟩ := List.cons.inj hunplaced
      cases tree with
      | call main =>
        have hmain : main.unplaced = Statement.printedRoot.unplaced := Node.call.inj hmain
        refine ⟨main, back, htrees, congrArg (·.head.text) hmain, ?_, hback⟩
        exact List.map_eq_nil_iff.mp (congrArg Statement.args hmain)
      | block head body => cases hmain
      | splice head owner => cases hmain
  · exact absurd hrisesAgain (not_risesFrom_append hjump back)

/-- A source with comments, a tab, blank lines and words that hold a quote or a `#`. -/
def untidy : Text :=
  Text.ofString "macro global m # adds\n    __plus\t'a#b'  :1 # one\n\n    twice\n        code   \n" ++
    "# nothing\nm"

/-- The source has a block in a block; printed and read back it has the same trees. -/
theorem printed_trees_read_back_untidy :
    13 ∉ untidy ∧ ∃ body, parse untidy = .ok body ∧
      (Node.root body).render = Text.ofString
        ("__main\nmacro global m\n    __plus 'a#b' :1\n    twice\n        code\nm") ∧
      ∃ main back, parse (Node.root body).render = .ok (.call main :: back) ∧
        main.head.text = Text.ofString "__main" ∧ main.args = [] ∧
          Node.bodyUnplaced back = Node.bodyUnplaced body := by
  have hreturn : 13 ∉ untidy := by decide +kernel
  have hparse : (parse untidy).toOption.map (fun body => (Node.root body).render) =
      some (Text.ofString
        ("__main\nmacro global m\n    __plus 'a#b' :1\n    twice\n        code\nm")) := by
    decide +kernel
  obtain ⟨body, hbody, hrender⟩ := Option.map_eq_some_iff.mp hparse
  have hbody : parse untidy = .ok body := eq_ok_of_toOption hbody
  exact ⟨hreturn, body, hbody, hrender, printed_trees_read_back hreturn hbody⟩

end Source

end Tapestry

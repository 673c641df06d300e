import Tapestry.Session.Diagnostic
import Tapestry.Proofs.SourceReading

/-!
# Where words stand

A statement is made of one line of a text, and the line of a statement tells which. So no two
statements of a text share a line, and a word is found in the text at the stretch that its place and
its width give.
-/

namespace Tapestry

/-- The bytes of a text at a stretch, if the text has the line. -/
def Span.excerpt? (span : Span) (text : Text) : Option Text :=
  (text.splitOn 10)[span.line]?.map fun line => (line.drop span.first).take (span.past - span.first)

namespace Source

variable {line : Text} {number : Int} {token : Token}

/-! ## Words of a line -/

/-- A run between the members that a list is split at is a stretch of the list. The first run begins
the list. -/
theorem infix_of_mem_splitOnP {α : Type} (p : α → Bool) (l : List α) :
    (∀ first ∈ (l.splitOnP p).head?, first <+: l) ∧ ∀ run ∈ l.splitOnP p, run <:+: l := by
  induction l with
  | nil => simp
  | cons a rest ih =>
    obtain ⟨hhead, hruns⟩ := ih
    obtain ⟨first, others, hsplit⟩ := List.exists_cons_of_ne_nil (List.splitOnP_ne_nil p rest)
    rw [hsplit] at hhead hruns
    rw [List.splitOnP_cons_eq_if_modifyHead, hsplit]
    split
    · refine ⟨by simp, fun run hrun => ?_⟩
      rcases List.mem_cons.mp hrun with rfl | hrun
      · exact List.nil_infix
      · exact List.infix_cons (hruns run hrun)
    · have hfirst : a :: first <+: a :: rest := (List.prefix_cons_inj a).mpr (hhead first rfl)
      refine ⟨by simpa using hfirst, fun run hrun => ?_⟩
      rcases List.mem_cons.mp hrun with rfl | hrun
      · exact hfirst.isInfix
      · exact List.infix_cons (hruns run (List.mem_cons_of_mem first hrun))

/-- A word stands in its line from its column on. -/
theorem take_drop_of_mem_words {word : Text} {column : Nat} (h : (column, word) ∈ words line) :
    (line.drop column).take word.length = word := by
  obtain ⟨run, hrun, hword⟩ := List.mem_filterMap.mp h
  obtain ⟨⟨byte, start⟩, hfirst, heq⟩ := Option.map_eq_some_iff.mp hword
  obtain ⟨rfl, rfl⟩ := Prod.mk.inj heq
  obtain ⟨before, behind, hsplit⟩ := (infix_of_mem_splitOnP _ _).2 run hrun
  have hline : before.map Prod.fst ++ (run.map Prod.fst ++ behind.map Prod.fst) = line := by
    rw [← List.map_append, ← List.map_append, ← List.append_assoc, hsplit, List.zipIdx_map_fst]
  have hstart : start = (before.map Prod.fst).length := by
    have hindex : line.zipIdx[before.length]? = some (byte, start) := by
      rw [← hsplit, List.append_assoc, List.getElem?_append_right (Nat.le_refl _), Nat.sub_self,
        ← List.head?_eq_getElem?, List.head?_append, hfirst, Option.some_or]
    rw [List.getElem?_zipIdx] at hindex
    obtain ⟨_, _, hpair⟩ := Option.map_eq_some_iff.mp hindex
    simpa using (Prod.mk.inj hpair).2.symm
  rw [← hline, hstart, List.drop_left, List.take_left]

/-- A token stands in its line from its column on. -/
theorem take_drop_of_mem_tokens (h : token ∈ tokens number line) :
    (line.drop token.column.toNat).take token.width = token.text := by
  obtain ⟨⟨column, word⟩, hword, rfl⟩ := List.mem_map.mp h
  exact take_drop_of_mem_words ((List.takeWhile_subset _) hword)

/-- A word has bytes. -/
theorem width_pos_of_mem_tokens (h : token ∈ tokens number line) : 0 < token.width := by
  have hword : token.text ∈ lineWords line := by
    rw [← map_text_tokens number]
    exact List.mem_map_of_mem h
  exact List.length_pos_of_ne_nil (isWord_of_mem_lineWords hword).1.nonempty

/-! ## Lines of a text -/

/-- A line that is trimmed at its end is the front of the line. -/
theorem dropRight_prefix (test : UInt8 → Bool) (t : Text) : Text.dropRight test t <+: t := by
  have hsuffix := List.dropWhile_suffix test (l := t.reverse)
  simpa [Text.dropRight] using List.reverse_prefix.mpr hsuffix

/-- A byte that is dropped at the end makes no difference. -/
theorem dropRight_concat {test : UInt8 → Bool} {b : UInt8} (h : test b = true) (t : Text) :
    Text.dropRight test (t ++ [b]) = Text.dropRight test t := by
  rw [Text.dropRight, List.reverse_concat, List.dropWhile_cons_of_pos h, Text.dropRight]

/-- A carriage return at the end of a line is white space like any other. -/
theorem dropRight_dropReturn (line : Text) :
    Text.dropRight isTrailing (Lines.dropReturn line) = Text.dropRight isTrailing line := by
  unfold Lines.dropReturn
  split
  case isTrue hreturn =>
    obtain ⟨front, rfl⟩ := List.getLast?_eq_some_iff.mp hreturn
    rw [List.dropLast_concat, dropRight_concat (by rfl)]
  case isFalse => rfl

/-- The lines of a text are those between its line feeds but for an empty one at the end. -/
theorem pieces_isPrefix (text : Text) : Lines.pieces text <+: text.splitOn 10 := by
  unfold Lines.pieces
  dsimp only
  split
  · exact List.dropLast_prefix _
  · exact List.prefix_refl _

/-- The lines read are those between the line feeds, in order. -/
theorem exists_of_lines {text : Text} {i : Nat} (h : (Lines.read text).lines[i]? = some line) :
    ∃ whole, (text.splitOn 10)[i]? = some whole ∧ line = Lines.dropReturn whole := by
  have hlines : (Lines.read text).lines =
      ((Lines.pieces text).takeWhile (·.length < Lines.limit)).map Lines.dropReturn := rfl
  rw [hlines, List.getElem?_map] at h
  obtain ⟨whole, hwhole, rfl⟩ := Option.map_eq_some_iff.mp h
  obtain ⟨behind, hbehind⟩ := (List.takeWhile_prefix (·.length < Lines.limit)).trans (pieces_isPrefix text)
  refine ⟨whole, ?_, rfl⟩
  rw [← hbehind, List.getElem?_append_left (List.getElem?_eq_some_iff.mp hwhole).1, hwhole]

/-- A line has no line feed in it. -/
theorem lineFeed_not_mem_of_splitOn {text : Text} (h : line ∈ text.splitOn 10) : 10 ∉ line := by
  intro hmem
  obtain ⟨_, hfalse⟩ := of_mem_splitOnP h hmem
  simp at hfalse

end Source

/-! ## Statements of a text -/

/-- A statement that is made of the line of a text that has its number. -/
structure Statement.StandsIn (text : Text) (statement : Statement) : Prop where
  exists_line : ∃ (i : Nat) (line : Text), (text.splitOn 10)[i]? = some line ∧
    statement.line = ((i + 1 : Nat) : Int) ∧ statement.source = Text.dropRight Source.isTrailing line
  tokens_eq : statement.tokens = Source.tokens statement.line statement.source
  depth_eq : statement.depth =
    ((Source.leadingSpaces statement.source / Source.indentWidth : Nat) : Int)

namespace Statement.StandsIn

variable {text : Text} {statement other : Statement} {token : Token}

/-- A text has one statement on a line. -/
theorem unique (h : statement.StandsIn text) (hother : other.StandsIn text)
    (hline : statement.line = other.line) : statement = other := by
  obtain ⟨i, line, hfound, hnumber, hsource⟩ := h.exists_line
  obtain ⟨j, line', hfound', hnumber', hsource'⟩ := hother.exists_line
  have hindex : i = j := by omega
  have hsame : line = line' := Option.some.inj (hfound.symm.trans (hindex ▸ hfound'))
  have hsources : statement.source = other.source := by rw [hsource, hsource', hsame]
  have htokens : statement.tokens = other.tokens := by
    rw [h.tokens_eq, hother.tokens_eq, hline, hsources]
  obtain ⟨hhead, hargs⟩ := List.cons.inj htokens
  have hdepth : statement.depth = other.depth := by rw [h.depth_eq, hother.depth_eq, hsources]
  cases statement
  cases other
  simp_all

/-- Lines are counted from 1. -/
theorem line_pos (h : statement.StandsIn text) : 0 < statement.line := by
  obtain ⟨i, _, _, hnumber, _⟩ := h.exists_line
  omega

/-- A word of a statement is on its line. -/
theorem line_of_mem (h : statement.StandsIn text) (htoken : token ∈ statement.tokens) :
    token.line = statement.line ∧ 0 ≤ token.column := by
  rw [h.tokens_eq] at htoken
  obtain ⟨hline, hcolumn, _⟩ := Source.placed_of_mem_tokens htoken
  exact ⟨hline, hcolumn⟩

/-- A word of a statement takes up room. -/
theorem width_pos_of_mem (h : statement.StandsIn text) (htoken : token ∈ statement.tokens) :
    0 < token.width := by
  rw [h.tokens_eq] at htoken
  exact Source.width_pos_of_mem_tokens htoken

/-- A word of a statement stands in its source. -/
theorem take_drop_of_mem (h : statement.StandsIn text) (htoken : token ∈ statement.tokens) :
    (statement.source.drop token.column.toNat).take token.width = token.text := by
  rw [h.tokens_eq] at htoken
  exact Source.take_drop_of_mem_tokens htoken

/-- The source of a statement has no line feed in it. -/
theorem lineFeed_not_mem (h : statement.StandsIn text) : 10 ∉ statement.source := by
  obtain ⟨i, line, hfound, _, hsource⟩ := h.exists_line
  intro hmem
  rw [hsource] at hmem
  exact Source.lineFeed_not_mem_of_splitOn (List.mem_of_getElem? hfound)
    ((Source.dropRight_prefix _ _).subset hmem)

/-- The text has the word of a statement at its stretch. -/
theorem excerpt?_of_mem (h : statement.StandsIn text) (htoken : token ∈ statement.tokens) :
    token.span.excerpt? text = some token.text := by
  obtain ⟨hline, hcolumn⟩ := h.line_of_mem htoken
  obtain ⟨i, line, hfound, hnumber, hsource⟩ := h.exists_line
  have hindex : token.span.line = i := by
    unfold Token.span
    dsimp only
    omega
  have hwidth : token.span.past - token.span.first = token.width := by
    unfold Token.span
    dsimp only
    omega
  have hword := h.take_drop_of_mem htoken
  obtain ⟨behind, hbehind⟩ := Source.dropRight_prefix Source.isTrailing line
  have hinside : token.column.toNat + token.width ≤ statement.source.length := by
    have hlength := congrArg List.length hword
    rw [List.length_take, List.length_drop] at hlength
    unfold Token.width at hlength ⊢
    have hstart : token.column.toNat < statement.source.length := by
      rw [h.tokens_eq] at htoken
      have := (Source.placed_of_mem_tokens htoken).2.2
      omega
    omega
  rw [Span.excerpt?, hindex, hfound, Option.map_some, hwidth, ← hbehind, ← hsource]
  change some (((statement.source ++ behind).drop token.column.toNat).take token.width) = _
  rw [List.drop_append_of_le_length (by omega), List.take_append_of_le_length, hword]
  rw [List.length_drop]
  omega

end Statement.StandsIn

namespace Source

variable {statement : Statement} {text : Text} {fault : Fault}

/-- A line that is read as a statement, well indented or not. -/
theorem standsIn_of_readLine {line : Text} {i : Nat}
    (hline : (Lines.read text).lines[i]? = some line)
    (h : readLine ((1 + i : Nat) : Int) line = .ok (some statement) ∨
      readLine ((1 + i : Nat) : Int) line = .error (badIndentation statement)) :
    statement.StandsIn text := by
  obtain ⟨whole, hwhole, rfl⟩ := exists_of_lines hline
  unfold readLine at h
  dsimp only at h
  rw [dropRight_dropReturn] at h
  split at h
  case h_1 => rcases h with h | h <;> cases h
  case h_2 head args htokens =>
    obtain rfl : statement = { line := ((1 + i : Nat) : Int)
                               depth := (leadingSpaces (Text.dropRight isTrailing whole) / indentWidth : Nat)
                               head, args, source := Text.dropRight isTrailing whole } := by
      split at h
      case isTrue =>
        rcases h with hread | hbad
        · exact (Option.some.inj (Except.ok.inj hread)).symm
        · cases hbad
      case isFalse =>
        rcases h with hread | hbad
        · cases hread
        · exact Option.some.inj (congrArg Fault.line (Except.error.inj hbad)).symm
    refine ⟨⟨i, whole, hwhole, ?_, rfl⟩, htokens.symm, rfl⟩
    rw [Nat.add_comm]

/-- The statements of a text stand in it. -/
theorem standsIn_of_statements {found : List Statement} (h : statements text = .ok found)
    (hmem : statement ∈ found) : statement.StandsIn text := by
  obtain ⟨i, line, hline, hread⟩ := exists_readLine_of_mem (statements_eq_ok_iff.mp h).1 hmem
  exact standsIn_of_readLine hline (.inl hread)

/-- The statements of the trees of a text stand in it. -/
theorem standsIn_of_parse {body : List Node} (h : parse text = .ok body)
    (hmem : statement ∈ Node.bodyStatements body) :
    statement.StandsIn text :=
  standsIn_of_statements (statements_of_parse h) hmem

/-- Lines that cannot be read have one with bad indentation among them. -/
theorem exists_badIndentation_of_readFrom {number : Nat} {lines : List Text}
    (h : readFrom number lines = .error fault) :
    ∃ (i : Nat) (line : Text) (statement : Statement), lines[i]? = some line ∧
      fault = badIndentation statement ∧
        readLine ((number + i : Nat) : Int) line = .error (badIndentation statement) := by
  induction lines generalizing number with
  | nil => cases h
  | cons line rest ih =>
    rw [readFrom] at h
    cases hline : readLine (number : Nat) line with
    | error other =>
      rw [hline] at h
      cases h
      rcases readLine_cases (number : Nat) line with ⟨_, hread⟩ | ⟨statement, _, _, hread⟩
      · rw [hline] at hread
        cases hread
      · rw [hline] at hread
        split at hread
        case isTrue => cases hread
        case isFalse =>
          cases hread
          exact ⟨0, line, statement, rfl, rfl, hline⟩
    | ok first =>
      rw [hline] at h
      cases hrest : readFrom (number + 1) rest with
      | ok found =>
        rw [hrest] at h
        cases h
      | error other =>
        rw [hrest] at h
        cases h
        obtain ⟨i, other, statement, hfound, hfault, hread⟩ := ih hrest
        refine ⟨i + 1, other, statement, hfound, hfault, ?_⟩
        rwa [Nat.add_right_comm] at hread

/-- What stops the reading of a text with a fault is a statement of the text that is badly indented. -/
theorem exists_standsIn_of_statements_error (h : statements text = .error (.fault fault)) :
    ∃ statement : Statement, statement.StandsIn text ∧ fault = badIndentation statement := by
  rw [statements_eq] at h
  cases hread : readFrom 1 (Lines.read text).lines with
  | ok found =>
    rw [hread] at h
    simp only [Except.mapError, Except.bind] at h
    split at h
    case isTrue => cases h
    case isFalse => cases h
  | error other =>
    rw [hread] at h
    obtain rfl := Failure.fault.inj (Except.error.inj h)
    obtain ⟨i, line, statement, hline, rfl, hbad⟩ := exists_badIndentation_of_readFrom hread
    exact ⟨statement, standsIn_of_readLine hline (.inr hbad), rfl⟩

/-- A text that cannot be parsed for a fault of the language has a statement to blame, which stands
in the text and is shown. -/
theorem exists_standsIn_of_parse_error (h : parse text = .error (.fault fault)) :
    ∃ statement : Statement, statement.StandsIn text ∧ fault.line = some statement ∧
      fault.token = some statement.head := by
  cases hstatements : statements text with
  | error failure =>
    rw [parse, hstatements] at h
    cases h
    obtain ⟨statement, hstands, rfl⟩ := exists_standsIn_of_statements_error hstatements
    exact ⟨statement, hstands, rfl, rfl⟩
  | ok found =>
    rcases parse_cases hstatements with ⟨_, trees, hok, _⟩ | ⟨front, statement, back, rfl, _, _, herror⟩
    · rw [h] at hok
      cases hok
    · rw [h] at herror
      obtain rfl := Failure.fault.inj (Except.error.inj herror)
      exact ⟨statement, standsIn_of_statements hstatements (by simp), rfl, rfl⟩

end Source

end Tapestry

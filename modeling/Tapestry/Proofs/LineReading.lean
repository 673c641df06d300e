import Mathlib.Data.List.DropRight
import Tapestry.Proofs.SourceStatements

/-!
# Reading one line

The words of a line are its longest runs without blanks, up to a comment. A line that is written
from words, with four spaces for each level in front and one space between words, is read as just
these words at that level, and no line with these words at that level is shorter.

The number of a line goes into the places of its words and nowhere else.
-/

namespace Tapestry

/-! ## Statements without their places -/

/-- A word apart from where it stands. -/
def Token.unplaced (token : Token) : Token := ⟨0, 0, token.text⟩

/-- A statement apart from where it stands: its level and its words. -/
def Statement.unplaced (statement : Statement) : Statement :=
  { line := 0
    depth := statement.depth
    head := statement.head.unplaced
    args := statement.args.map Token.unplaced
    source := [] }

/-- Statements of one level and with the same words are the same but for their places. -/
theorem Statement.unplaced_eq {statement other : Statement} (hdepth : statement.depth = other.depth)
    (hwords : statement.tokens.map Token.text = other.tokens.map Token.text) :
    statement.unplaced = other.unplaced := by
  have hunplaced (s : Statement) :
      s.tokens.map Token.unplaced = (s.tokens.map Token.text).map fun text => ⟨0, 0, text⟩ := by
    rw [List.map_map]
    rfl
  have htokens : statement.tokens.map Token.unplaced = other.tokens.map Token.unplaced := by
    rw [hunplaced, hunplaced, hwords]
  obtain ⟨hhead, hargs⟩ := List.cons.inj htokens
  rw [unplaced, unplaced, hdepth, hhead, hargs]

namespace Source

variable {texts : List Text} {line first : Text} {b : UInt8}

/-! ## Runs without blanks -/

/-- Splitting a list at some of its members commutes with mapping it. -/
theorem splitOnP_map {α β : Type} (f : α → β) (p : β → Bool) (l : List α) :
    (l.map f).splitOnP p = (l.splitOnP fun a => p (f a)).map (List.map f) := by
  induction l with
  | nil => simp
  | cons a rest ih =>
    obtain ⟨run, runs, hsplit⟩ := List.exists_cons_of_ne_nil (List.splitOnP_ne_nil (fun a => p (f a)) rest)
    rw [List.map_cons, List.splitOnP_cons_eq_if_modifyHead, List.splitOnP_cons_eq_if_modifyHead, ih, hsplit]
    split <;> simp

/-- The words of a line before its comment. -/
def lineWords (line : Text) : List Text :=
  ((line.splitOnP Byte.isBlank).filter fun run => !run.isEmpty).takeWhile fun word => !isComment word

/-- The words of a line without their columns. -/
theorem map_snd_words (line : Text) :
    (words line).map Prod.snd = (line.splitOnP Byte.isBlank).filter fun run => !run.isEmpty := by
  have hruns (runs : List (List (UInt8 × Nat))) :
      (runs.filterMap fun run => run.head?.map fun first => (first.2, run.map Prod.fst)).map
        Prod.snd = (runs.map (List.map Prod.fst)).filter fun run => !run.isEmpty := by
    induction runs with
    | nil => rfl
    | cons run rest ih => cases run <;> simp [ih]
  calc (words line).map Prod.snd
      = ((line.zipIdx.splitOnP fun entry => Byte.isBlank entry.1).map (List.map Prod.fst)).filter
          fun run => !run.isEmpty := hruns _
    _ = (line.splitOnP Byte.isBlank).filter fun run => !run.isEmpty := by
        rw [← splitOnP_map, List.zipIdx_map_fst]

/-- The texts of the tokens of a line are its words. -/
theorem map_text_tokens (number : Int) (line : Text) :
    (tokens number line).map Token.text = lineWords line := by
  rw [lineWords, ← map_snd_words, List.takeWhile_map, tokens, List.map_map]
  rfl

/-- What the lexer takes for a word: it has bytes, none of them blank, and it begins no comment. -/
structure IsWord (word : Text) : Prop where
  nonempty : word ≠ []
  solid : ∀ b ∈ word, Byte.isBlank b = false
  plain : isComment word = false

/-- A word of a line is a word, and its bytes are bytes of the line. -/
theorem isWord_of_mem_lineWords {word : Text} (h : word ∈ lineWords line) :
    IsWord word ∧ word ⊆ line := by
  have hplain := List.all_eq_true.mp List.all_takeWhile word h
  obtain ⟨hrun, hnonempty⟩ := List.mem_filter.mp (List.takeWhile_subset _ h)
  exact ⟨⟨by simpa using hnonempty, fun b hb => (of_mem_splitOnP hrun hb).2, by simpa using hplain⟩,
    fun b hb => (of_mem_splitOnP hrun hb).1⟩

/-! ## Written lines -/

/-- A line of words at a level. -/
def writeLine (level : Int) (texts : List Text) : Text := Node.indent level ++ Text.join " " texts

/-- The indentation of a level is made of spaces. -/
theorem indent_eq (level : Int) :
    Node.indent level = List.replicate (indentWidth * level.toNat) 32 := by
  have hspaces : Text.ofString "    " = List.replicate indentWidth 32 := by decide
  rw [Node.indent, Text.times, Nat.mul_comm, hspaces, List.flatten_replicate_replicate]

/-- Spaces in front are pieces without bytes. -/
theorem splitOnP_spaces (count : Nat) (rest : Text) :
    (List.replicate count 32 ++ rest).splitOnP Byte.isBlank =
      List.replicate count [] ++ rest.splitOnP Byte.isBlank := by
  induction count with
  | zero => rfl
  | succ count ih =>
    rw [List.replicate_succ, List.replicate_succ, List.cons_append, List.cons_append, ← ih,
      List.splitOnP_cons_eq_if_modifyHead, if_pos (by decide)]

/-- Texts are joined with a separator between the first two. -/
theorem join_cons_cons (separator first next : Text) (rest : List Text) :
    Text.join separator (first :: next :: rest) =
      first ++ (separator ++ Text.join separator (next :: rest)) := by
  rw [Text.join, List.intercalate_cons_cons, List.append_assoc]
  rfl

/-- Words are joined with a space between the first two. -/
theorem join_words (first next : Text) (rest : List Text) :
    Text.join " " (first :: next :: rest) = first ++ 32 :: Text.join " " (next :: rest) :=
  join_cons_cons " " first next rest

/-- Words with single spaces between them are what the line is split into. -/
theorem splitOnP_join (hwords : ∀ text ∈ texts, IsWord text) (hsome : texts ≠ []) :
    (Text.join " " texts).splitOnP Byte.isBlank = texts := by
  induction texts with
  | nil => exact absurd rfl hsome
  | cons first rest ih =>
    obtain ⟨hfirst, hrest⟩ := List.forall_mem_cons.mp hwords
    cases rest with
    | nil => simpa [Text.join] using List.splitOnP_eq_singleton hfirst.solid
    | cons next rest =>
      rw [join_words, List.splitOnP_append_cons_of_forall_mem hfirst.solid 32 (by decide),
        ih hrest (List.cons_ne_nil _ _)]

/-- The words of a written line are those it was written from. -/
theorem lineWords_writeLine (level : Int) (hwords : ∀ text ∈ texts, IsWord text)
    (hsome : texts ≠ []) : lineWords (writeLine level texts) = texts := by
  have hkept : texts.filter (fun run => !run.isEmpty) = texts :=
    List.filter_eq_self.mpr fun text htext => by simpa using (hwords text htext).nonempty
  have hempty (count : Nat) : (List.replicate count ([] : Text)).filter (fun run => !run.isEmpty) = [] := by
    simp
  rw [lineWords, writeLine, indent_eq, splitOnP_spaces, splitOnP_join hwords hsome, List.filter_append,
    hempty, List.nil_append, hkept, List.takeWhile_eq_self_iff]
  exact fun text htext => by simpa using (hwords text htext).plain

/-- Joined texts have no bytes but their own and those between them. -/
theorem mem_join {separator : Text} (h : b ∈ Text.join separator texts) :
    b ∈ separator ∨ ∃ text ∈ texts, b ∈ text := by
  induction texts with
  | nil => cases h
  | cons first rest ih =>
    cases rest with
    | nil => exact .inr ⟨first, List.mem_cons_self, by simpa [Text.join] using h⟩
    | cons next rest =>
      rw [join_cons_cons, List.mem_append, List.mem_append] at h
      rcases h with hfirst | hseparator | hrest
      · exact .inr ⟨first, List.mem_cons_self, hfirst⟩
      · exact .inl hseparator
      · exact (ih hrest).imp_right fun hlater =>
          hlater.imp fun text htext => ⟨List.mem_cons_of_mem first htext.1, htext.2⟩

/-- Joined texts begin as the first of them does. -/
theorem head?_join (separator : Text) (hfirst : first ≠ []) (rest : List Text) :
    (Text.join separator (first :: rest)).head? = first.head? := by
  cases rest with
  | nil => simp [Text.join]
  | cons next rest => rw [join_cons_cons, List.head?_append_of_ne_nil _ hfirst]

/-- Texts of which the first has bytes have bytes together. -/
theorem join_ne_nil (separator : Text) (hfirst : first ≠ []) (rest : List Text) :
    Text.join separator (first :: rest) ≠ [] := by
  intro hnil
  apply hfirst
  rw [← List.head?_eq_none_iff, ← head?_join separator hfirst rest, hnil]
  rfl

/-- Joined texts end within one of them. -/
theorem exists_mem_of_getLast?_join (separator : Text) (hsome : ∀ text ∈ texts, text ≠ [])
    (h : (Text.join separator texts).getLast? = some b) : ∃ text ∈ texts, b ∈ text := by
  induction texts with
  | nil => cases h
  | cons first rest ih =>
    obtain ⟨_, hrest⟩ := List.forall_mem_cons.mp hsome
    cases rest with
    | nil => exact ⟨first, List.mem_cons_self, List.mem_of_getLast? (by simpa [Text.join] using h)⟩
    | cons next rest =>
      have hjoin := join_ne_nil separator (hrest next List.mem_cons_self) rest
      rw [join_cons_cons, ← List.append_assoc, List.getLast?_append_of_ne_nil _ hjoin] at h
      obtain ⟨text, htext, hb⟩ := ih hrest h
      exact ⟨text, List.mem_cons_of_mem first htext, hb⟩

/-- Spaces and no more are counted as leading. -/
theorem leadingSpaces_append (count : Nat) {rest : Text} (hrest : rest.head? ≠ some 32) :
    leadingSpaces (List.replicate count 32 ++ rest) = count := by
  have hspaces : ∀ b ∈ List.replicate count (32 : UInt8), (b == 32) = true := fun b hb => by
    rw [List.eq_of_mem_replicate hb]
    rfl
  have hstop : rest.takeWhile (· == 32) = [] := by
    cases rest with
    | nil => rfl
    | cons b rest => exact List.takeWhile_cons_of_neg (by simpa using hrest)
  rw [leadingSpaces, List.takeWhile_append_of_pos hspaces, hstop, List.append_nil, List.length_replicate]

/-- A line ends where it does not end in something that counts for nothing. -/
theorem dropRight_eq_self {test : UInt8 → Bool} {t : Text} (h : ∀ b ∈ t.getLast?, test b = false) :
    Text.dropRight test t = t := by
  refine List.rdropWhile_eq_self_iff.mpr fun hsome => ?_
  simp [h (t.getLast hsome) (List.getLast?_eq_some_getLast hsome)]

section Written

variable (level : Int) {texts : List Text}

/-- A written line ends in one of its words, so nothing is dropped from it. -/
theorem dropRight_writeLine (hwords : ∀ text ∈ texts, IsWord text) (hsome : texts ≠ [])
    (hreturn : ∀ text ∈ texts, 13 ∉ text) :
    Text.dropRight isTrailing (writeLine level texts) = writeLine level texts := by
  apply dropRight_eq_self
  intro b hb
  have hnonempty : ∀ text ∈ texts, text ≠ [] := fun text htext => (hwords text htext).nonempty
  have hjoin : Text.join " " texts ≠ [] := by
    obtain ⟨first, rest, rfl⟩ := List.exists_cons_of_ne_nil hsome
    exact join_ne_nil " " (hnonempty first List.mem_cons_self) rest
  rw [writeLine, List.getLast?_append_of_ne_nil _ hjoin] at hb
  obtain ⟨text, htext, hmem⟩ := exists_mem_of_getLast?_join " " hnonempty hb
  have hblank := (hwords text htext).solid b hmem
  have hne : b ≠ 13 := fun heq => hreturn text htext (heq ▸ hmem)
  simpa [isTrailing, Byte.isBlank, hne] using hblank

/-- A written line begins with as many spaces as its level wants, and no tab follows. -/
theorem leadingSpaces_writeLine (hwords : ∀ text ∈ texts, IsWord text) (hsome : texts ≠ []) :
    leadingSpaces (writeLine level texts) = indentWidth * level.toNat ∧
      wellIndented (writeLine level texts) = true := by
  obtain ⟨first, rest, rfl⟩ := List.exists_cons_of_ne_nil hsome
  have hfirst := hwords first List.mem_cons_self
  have hhead : ∀ b ∈ (Text.join " " (first :: rest)).head?, Byte.isBlank b = false := fun b hb => by
    rw [head?_join " " hfirst.nonempty] at hb
    exact hfirst.solid b (List.mem_of_mem_head? hb)
  have hspaces : leadingSpaces (writeLine level (first :: rest)) = indentWidth * level.toNat := by
    rw [writeLine, indent_eq]
    exact leadingSpaces_append _ fun hspace => absurd (hhead 32 hspace) (by decide)
  refine ⟨hspaces, ?_⟩
  have htab : (Text.join " " (first :: rest)).head? ≠ some 9 := fun htab =>
    absurd (hhead 9 htab) (by decide)
  have hdrop : (writeLine level (first :: rest)).drop (indentWidth * level.toNat) =
      Text.join " " (first :: rest) := by
    rw [writeLine, indent_eq]
    exact List.drop_left' List.length_replicate
  simp [wellIndented, hspaces, hdrop, htab]

end Written

/-! ## Lines read -/

/-- What reading a line gives: nothing if it has no words, else a statement of its words at the
level of its leading spaces, provided that these make up a level. -/
theorem readLine_cases (number : Int) (text : Text) :
    (tokens number (Text.dropRight isTrailing text) = [] ∧ readLine number text = .ok none) ∨
      ∃ statement : Statement, statement.tokens = tokens number (Text.dropRight isTrailing text) ∧
        statement.depth = (leadingSpaces (Text.dropRight isTrailing text) / indentWidth : Nat) ∧
          readLine number text =
            if wellIndented (Text.dropRight isTrailing text) then .ok (some statement)
            else .error (badIndentation statement) := by
  unfold readLine
  dsimp only
  cases htokens : tokens number (Text.dropRight isTrailing text) with
  | nil => exact .inl ⟨rfl, rfl⟩
  | cons head args => exact .inr ⟨_, rfl, rfl, rfl⟩

/-- A written line is read as the words it was written from. -/
theorem readLine_writeLine (number : Int) {level : Int} (hlevel : 0 ≤ level)
    (hwords : ∀ text ∈ texts, IsWord text) (hsome : texts ≠ [])
    (hreturn : ∀ text ∈ texts, 13 ∉ text) :
    ∃ statement, readLine number (writeLine level texts) = .ok (some statement) ∧
      statement.depth = level ∧ statement.tokens.map Token.text = texts := by
  obtain ⟨hspaces, hindented⟩ := leadingSpaces_writeLine level hwords hsome
  have hline := lineWords_writeLine level hwords hsome
  have hcases := readLine_cases number (writeLine level texts)
  rw [dropRight_writeLine level hwords hsome hreturn] at hcases
  rcases hcases with ⟨hnone, _⟩ | ⟨statement, htokens, hdepth, hread⟩
  · rw [← map_text_tokens number, hnone] at hline
    exact absurd hline.symm hsome
  · refine ⟨statement, ?_, ?_, ?_⟩
    · rw [hread, if_pos hindented]
    · rw [hdepth, hspaces, indentWidth]
      omega
    · rw [htokens, map_text_tokens, hline]

/-- The statement of a line has the words of the line, at the level of its leading spaces. -/
theorem words_of_readLine {number : Int} {text : Text} {statement : Statement}
    (h : readLine number text = .ok (some statement)) :
    statement.tokens.map Token.text = lineWords (Text.dropRight isTrailing text) ∧
      wellIndented (Text.dropRight isTrailing text) = true ∧
        statement.depth = (leadingSpaces (Text.dropRight isTrailing text) / indentWidth : Nat) := by
  rcases readLine_cases number text with ⟨_, hread⟩ | ⟨other, htokens, hdepth, hread⟩
  · rw [h] at hread
    cases hread
  · rw [h] at hread
    split at hread
    case isTrue hindented =>
      obtain rfl := Option.some.inj (Except.ok.inj hread)
      exact ⟨by rw [htokens, map_text_tokens], hindented, hdepth⟩
    case isFalse => cases hread

/-! ## The lengths of lines -/

/-- The bytes of some words with one more for each. -/
def spread : List Text → Nat
  | [] => 0
  | text :: rest => text.length + 1 + spread rest

/-- The pieces between the blanks of a line spread over all of it. -/
theorem spread_splitOnP (line : Text) : spread (line.splitOnP Byte.isBlank) = line.length + 1 := by
  induction line with
  | nil => rfl
  | cons b rest ih =>
    obtain ⟨run, runs, hsplit⟩ := List.exists_cons_of_ne_nil (List.splitOnP_ne_nil Byte.isBlank rest)
    rw [hsplit] at ih
    rw [List.splitOnP_cons_eq_if_modifyHead, hsplit]
    simp only [spread, List.length_cons] at ih ⊢
    split
    · simp only [spread, List.length_nil]
      omega
    · simp only [List.modifyHead_cons, spread, List.length_cons]
      omega

/-- Joined words are as long as they spread. -/
theorem length_join (hsome : texts ≠ []) : (Text.join " " texts).length + 1 = spread texts := by
  induction texts with
  | nil => exact absurd rfl hsome
  | cons first rest ih =>
    cases rest with
    | nil => simp [Text.join, spread]
    | cons next rest =>
      have hrest := ih (List.cons_ne_nil _ _)
      rw [join_words, List.length_append, List.length_cons, hrest]
      simp only [spread]
      omega

/-- Fewer texts spread less. -/
theorem spread_le_of_sublist {others : List Text} (h : texts.Sublist others) :
    spread texts ≤ spread others := by
  induction h with
  | slnil => exact Nat.le_refl _
  | cons text _ ih =>
    simp only [spread] at ih ⊢
    omega
  | cons_cons text _ ih =>
    simp only [spread] at ih ⊢
    omega

/-- Written anew, the words of a line take no more room than the line. -/
theorem length_writeLine_le (hindented : wellIndented line = true) (hsome : lineWords line ≠ []) :
    (writeLine (leadingSpaces line / indentWidth : Nat) (lineWords line)).length ≤ line.length := by
  -- The line is its leading spaces and a rest, and all its words are in the rest.
  obtain ⟨rest, hline⟩ : ∃ rest, line = List.replicate (leadingSpaces line) 32 ++ rest := by
    refine ⟨line.dropWhile (· == 32), ?_⟩
    have hspaces : line.takeWhile (· == 32) = List.replicate (leadingSpaces line) 32 :=
      List.eq_replicate_of_mem fun b hb => by
        simpa using List.all_eq_true.mp List.all_takeWhile b hb
    rw [← hspaces, List.takeWhile_append_dropWhile]
  have hsublist : (lineWords line).Sublist (rest.splitOnP Byte.isBlank) := by
    have hempty (count : Nat) :
        (List.replicate count ([] : Text)).filter (fun run => !run.isEmpty) = [] := by simp
    rw [lineWords, hline, splitOnP_spaces, List.filter_append, hempty, List.nil_append]
    exact (List.takeWhile_sublist _).trans List.filter_sublist
  have hspread := spread_le_of_sublist hsublist
  rw [spread_splitOnP, ← length_join hsome] at hspread
  have hlength : line.length = leadingSpaces line + rest.length := by
    conv => lhs; rw [hline]
    rw [List.length_append, List.length_replicate]
  have hlevel : indentWidth * ((leadingSpaces line / indentWidth : Nat) : Int).toNat = leadingSpaces line := by
    have hwhole : leadingSpaces line % indentWidth = 0 := by
      simpa using (Bool.and_eq_true_iff.mp hindented).1
    rw [Int.toNat_natCast]
    exact Nat.mul_div_cancel' (Nat.dvd_of_mod_eq_zero hwhole)
  rw [writeLine, indent_eq, List.length_append, List.length_replicate, hlevel, hlength]
  omega

end Source

end Tapestry

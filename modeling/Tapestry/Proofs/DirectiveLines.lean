import Tapestry.Fixture
import Tapestry.Proofs.GlyphReading
import Tapestry.Proofs.LineLexing

/-!
# Directives and the lexer

The expectations of a fixture stand in its source, where the lexer must not see them. A line is a
directive if it begins with the mark once white space of any sort has been trimmed. To the lexer it is
a comment only if nothing but spaces and tabs stands in front of the mark: any other white space, such
as a form feed or a no-break space, begins a word.

So the lexer passes over a directive exactly if the mark stands behind blanks alone. A source with such
directives is parsed like the source with blank lines in their place, and no other source that can be
parsed is.
-/

namespace Tapestry

namespace Source

variable {number : Nat} {text line : Text} {lines others : List Text}

/-! ## Lines without words -/

/-- The first byte of the first word of a line is its first byte that is no blank. -/
theorem head?_wordsFrom (start : Nat) (line : Text) :
    ((wordsFrom start line).head?.bind fun place => place.2.head?) =
      (line.dropWhile Byte.isBlank).head? := by
  induction line generalizing start with
  | nil => rfl
  | cons b rest ih =>
    cases hb : Byte.isBlank b with
    | true =>
      have hcut : wordsFrom start ([] ++ b :: rest) = wordsFrom (start + 0 + 1) rest :=
        wordsFrom_cut (by simp) hb start
      rw [← List.nil_append (b :: rest), hcut, ih, List.nil_append, List.dropWhile_cons_of_pos hb]
    | false =>
      rw [List.dropWhile_cons_of_neg (by simp [hb])]
      rcases exists_cut (b :: rest) with hsolid | ⟨front, blank, back, heq, hfront, hblank⟩
      · rw [wordsFrom_solid hsolid]
        rfl
      · rw [heq, wordsFrom_cut hfront hblank]
        cases front with
        | nil =>
          obtain ⟨rfl, _⟩ := List.cons.inj heq
          rw [hb] at hblank
          cases hblank
        | cons first front =>
          obtain ⟨rfl, _⟩ := List.cons.inj heq
          rfl

/-- A line gives no words if nothing or a comment follows its leading blanks. -/
theorem tokens_eq_nil_iff_head? (number : Int) (line : Text) :
    tokens number line = [] ↔ ∀ b ∈ (line.dropWhile Byte.isBlank).head?, b = 35 := by
  have htokens : tokens number line = [] ↔ ((words line).takeWhile fun place => !isComment place.2) = [] :=
    List.map_eq_nil_iff
  have hfirst : ((words line).head?.bind fun place => place.2.head?) =
      (line.dropWhile Byte.isBlank).head? :=
    head?_wordsFrom 0 line
  rw [htokens, ← hfirst]
  cases hwords : words line with
  | nil => simp
  | cons place places =>
    have hrun : IsRun line place.1 place.2 := mem_words_iff.mp (hwords ▸ List.mem_cons_self)
    obtain ⟨b, word, hword⟩ := List.exists_cons_of_ne_nil hrun.nonempty
    simp [isComment, hword, List.takeWhile_cons]

/-- A line is read as nothing just if it has no words. -/
theorem readLine_eq_none_iff (number : Int) (text : Text) :
    readLine number text = .ok none ↔ tokens number (Text.dropRight isTrailing text) = [] := by
  rcases readLine_cases number text with ⟨htokens, hnone⟩ | ⟨statement, htokens, _, hsome⟩
  · exact ⟨fun _ => htokens, fun _ => hnone⟩
  · rw [← htokens, hsome]
    constructor
    · intro hnone
      split at hnone <;> cases hnone
    · intro hnil
      cases hnil

/-- Behind its leading blanks, a line with a comment in it begins alike before and after trimming. -/
theorem head?_dropWhile_trimmed (h : 35 ∈ text) :
    ((Text.dropRight isTrailing text).dropWhile Byte.isBlank).head? =
      (text.dropWhile Byte.isBlank).head? := by
  obtain ⟨⟨rest, hrest, htrailing⟩, _⟩ := trims_dropRight text
  generalize Text.dropRight isTrailing text = trimmed at hrest
  cases hfront : trimmed.dropWhile Byte.isBlank with
  | nil =>
    have hblank := List.dropWhile_eq_nil_iff.mp hfront
    rcases List.mem_append.mp (hrest ▸ h) with hmem | hmem
    · exact absurd (hblank 35 hmem) (by decide)
    · exact absurd (htrailing 35 hmem) (by decide)
  | cons b front =>
    rw [hrest, List.dropWhile_append, hfront]
    rfl

/-! ## Lines one by one -/

/-- Read the lines between line feeds in order, up to one that is too long or cannot be read. -/
def readLines (number : Nat) : List Text → Except Failure (List Statement)
  | [] => .ok []
  | line :: rest =>
    if line.length < Lines.limit then
      ((readLine number line).mapError Failure.fault).bind fun first =>
        (readLines (number + 1) rest).map (first.toList ++ ·)
    else .error (.trouble .lineTooLong)

/-- Lines are read up to the first that is too long, which is a failure behind those in front of it.
-/
theorem readLines_eq (number : Nat) (lines : List Text) :
    readLines number lines =
      ((readFrom number ((lines.takeWhile (·.length < Lines.limit)).map Lines.dropReturn)).mapError
        Failure.fault).bind fun found =>
          if (lines.takeWhile (·.length < Lines.limit)).length < lines.length then
            .error (.trouble .lineTooLong)
          else .ok found := by
  induction lines generalizing number with
  | nil => rfl
  | cons line rest ih =>
    by_cases hshort : line.length < Lines.limit
    · rw [readLines, if_pos hshort, ih, List.takeWhile_cons_of_pos (by simpa using hshort),
        List.map_cons, readFrom, readLine_dropReturn]
      simp only [List.length_cons, Nat.add_lt_add_iff_right]
      cases readLine number line with
      | error fault => rfl
      | ok first =>
        cases readFrom (number + 1) ((rest.takeWhile (·.length < Lines.limit)).map Lines.dropReturn) with
        | error fault => rfl
        | ok found =>
          by_cases hlong : (rest.takeWhile (·.length < Lines.limit)).length < rest.length
          · simp only [Except.mapError, Except.bind, Except.map, if_pos hlong]
          · simp only [Except.mapError, Except.bind, Except.map, if_neg hlong]
    · rw [readLines, if_neg hshort, List.takeWhile_cons_of_neg (by simpa using hshort)]
      rfl

/-- An empty line at the end does not matter. -/
theorem readLines_concat_nil (number : Nat) (lines : List Text) :
    readLines number (lines ++ [[]]) = readLines number lines := by
  induction lines generalizing number with
  | nil => rfl
  | cons line rest ih => rw [List.cons_append, readLines, readLines, ih]

/-- The pieces of a text are read as its lines. -/
theorem readLines_pieces (text : Text) :
    readLines 1 (Lines.pieces text) = readLines 1 (text.splitOn 10) := by
  unfold Lines.pieces
  dsimp only
  split
  case isTrue hlast =>
    obtain ⟨front, hfront⟩ := List.getLast?_eq_some_iff.mp hlast
    rw [hfront, List.dropLast_concat, readLines_concat_nil]
  case isFalse => rfl

/-- The statements of a text are read from the lines between its line feeds. -/
theorem statements_eq_readLines (text : Text) : statements text = readLines 1 (text.splitOn 10) := by
  rw [← readLines_pieces, readLines_eq, statements_eq]
  simp only [Lines.read, decide_eq_true_eq]

/-- Lines that give nothing may be replaced by empty ones. -/
theorem readLines_congr
    (h : List.Forall₂ (fun line other => other = line ∨
      other = [] ∧ line.length < Lines.limit ∧ ∀ number, readLine number line = .ok none) lines others) :
    readLines number others = readLines number lines := by
  induction h generalizing number with
  | nil => rfl
  | cons hline _ ih =>
    rcases hline with rfl | ⟨rfl, hshort, hnone⟩
    · rw [readLines, readLines, ih]
    · rw [readLines, readLines, ih, if_pos hshort, hnone]
      rfl

/-- A line that is read as a statement gives one of the statements. -/
theorem exists_mem_of_readFrom {found : List Statement} (h : readFrom number lines = .ok found) {i : Nat}
    (hline : lines[i]? = some line) (hsome : readLine ((number + i : Nat) : Int) line ≠ .ok none) :
    ∃ statement ∈ found, readLine ((number + i : Nat) : Int) line = .ok (some statement) := by
  induction lines generalizing number found i with
  | nil => cases hline
  | cons first rest ih =>
    obtain ⟨head, hhead, h⟩ := exists_of_bind_eq_ok h
    obtain ⟨later, hlater, rfl⟩ := exists_of_map_eq_ok h
    cases i with
    | zero =>
      cases hline
      cases head with
      | none => exact absurd hhead hsome
      | some statement => exact ⟨statement, by simp, hhead⟩
    | succ i =>
      have hnumber : number + (i + 1) = number + 1 + i := by omega
      rw [hnumber] at hsome ⊢
      obtain ⟨statement, hmem, hread⟩ := ih hlater hline hsome
      exact ⟨statement, List.mem_append_right _ hmem, hread⟩

end Source

/-! ## Directives -/

namespace Directive

variable {line : Text}

/-- A line whose mark stands behind spaces and tabs alone. -/
def BehindBlanks (line : Text) : Prop := mark <+: line.dropWhile Byte.isBlank

instance (line : Text) : Decidable (BehindBlanks line) :=
  inferInstanceAs (Decidable (mark <+: line.dropWhile Byte.isBlank))

/-- A line is taken for a directive if it begins with the mark once it has been trimmed. -/
theorem ofLine_ne_none_iff : ofLine line ≠ .ok none ↔ mark <+: Utf8.trim line := by
  unfold ofLine
  dsimp only
  rw [← List.isPrefixOf_iff_prefix]
  cases hmark : mark.isPrefixOf (Utf8.trim line) with
  | false => simp
  | true =>
    rw [if_pos rfl]
    cases read _ _ <;> simp [Except.map]

/-- Blanks in front make no difference to a trimmed line. -/
theorem trim_dropWhile_isBlank (line : Text) :
    Utf8.trim (line.dropWhile Byte.isBlank) = Utf8.trim line := by
  induction line with
  | nil => rfl
  | cons b rest ih =>
    cases hb : Byte.isBlank b with
    | false => rw [List.dropWhile_cons_of_neg (by simp [hb])]
    | true =>
      rw [List.dropWhile_cons_of_pos hb, ih]
      rcases Source.isBlank_iff.mp hb with rfl | rfl
      · exact (Utf8.trim_cons_of_isSpace (by decide) (by decide) rest).symm
      · exact (Utf8.trim_cons_of_isSpace (by decide) (by decide) rest).symm

/-- A directive with a comment behind its leading blanks has the mark there. -/
theorem behindBlanks_of_head? (h : mark <+: Utf8.trim line)
    (hcomment : (line.dropWhile Byte.isBlank).head? = some 35) : BehindBlanks line := by
  rw [← trim_dropWhile_isBlank] at h
  unfold BehindBlanks
  cases hline : line.dropWhile Byte.isBlank with
  | nil =>
    rw [hline] at hcomment
    cases hcomment
  | cons b rest =>
    rw [hline] at h hcomment
    cases hcomment
    exact h.trans (Utf8.trim_prefix (by decide) (by decide) rest)

/-- The lexer passes over a directive exactly if its mark stands behind blanks alone. -/
theorem readLine_eq_none_iff_behindBlanks (h : ofLine line ≠ .ok none) (number : Int) :
    Source.readLine number line = .ok none ↔ BehindBlanks line := by
  have hmark := ofLine_ne_none_iff.mp h
  have hmem : 35 ∈ line := (Utf8.trim_infix line).subset (hmark.subset List.mem_cons_self)
  rw [Source.readLine_eq_none_iff, Source.tokens_eq_nil_iff_head?, Source.head?_dropWhile_trimmed hmem]
  constructor
  · intro hfirst
    cases hline : (line.dropWhile Byte.isBlank).head? with
    | none =>
      have hblank := List.dropWhile_eq_nil_iff.mp (List.head?_eq_none_iff.mp hline)
      exact absurd (hblank 35 hmem) (by decide)
    | some b => exact behindBlanks_of_head? hmark (hline.trans (congrArg some (hfirst b hline)))
  · intro hbehind b hb
    obtain ⟨rest, hrest⟩ := hbehind
    rw [← hrest] at hb
    exact (Option.some.inj hb).symm

/-- A line with nothing in place of a directive. -/
def blank (line : Text) : Text := if mark <+: Utf8.trim (Lines.dropReturn line) then [] else line

/-- A line that is blanked has no line feed in it. -/
theorem lineFeed_not_mem_blank (h : 10 ∉ line) : 10 ∉ blank line := by
  unfold blank
  split
  · exact List.not_mem_nil
  · exact h

end Directive

/-! ## Sources without their directives -/

namespace Fixture

open Source (shortLines)
open Directive (mark)

/-- A source with blank lines in place of its directives. Lines from one that is too long on are not read,
so they have none. -/
def blanked (source : Text) : Text :=
  Text.join [10]
    ((shortLines source).map Directive.blank ++ (source.splitOn 10).drop (shortLines source).length)

variable {source : Text}

/-- The lines of a source are those up to the first that is too long, and the rest. -/
theorem splitOn_eq (source : Text) :
    source.splitOn 10 = shortLines source ++ (source.splitOn 10).drop (shortLines source).length := by
  obtain ⟨rest, hrest⟩ := Source.shortLines_isPrefix source
  rw [← hrest, List.drop_left]

/-- The lines of a blanked source are those up to the first that is too long, each blanked, and the
rest. -/
theorem splitOn_blanked (source : Text) :
    (blanked source).splitOn 10 =
      (shortLines source).map Directive.blank ++ (source.splitOn 10).drop (shortLines source).length := by
  refine List.splitOn_intercalate 10 (fun line hline => ?_) (fun hnone => ?_)
  · rcases List.mem_append.mp hline with hread | hrest
    · obtain ⟨whole, hwhole, rfl⟩ := List.mem_map.mp hread
      exact Directive.lineFeed_not_mem_blank
        (Source.lineFeed_not_mem_of_splitOn ((Source.shortLines_isPrefix source).subset hwhole))
    · exact Source.lineFeed_not_mem_of_splitOn (List.mem_of_mem_drop hrest)
  · have hlength := congrArg List.length (splitOn_eq source)
    have hzero := congrArg List.length hnone
    rw [List.length_append, List.length_map] at hzero
    rw [List.length_append, hzero] at hlength
    exact List.splitOn_ne_nil 10 source (List.length_eq_zero_iff.mp hlength)

/-- The lines of a fixture are those up to the first that is too long, without returns. -/
theorem lines_eq (source : Text) :
    (Lines.read source).lines = (shortLines source).map Lines.dropReturn := rfl

/-- A source whose directives all have their marks behind blanks alone. -/
def Plain (source : Text) : Prop :=
  ∀ line ∈ (Lines.read source).lines, Directive.ofLine line ≠ .ok none → Directive.BehindBlanks line

/-- Such directives may be taken out. -/
theorem Plain.parse_blanked (h : Plain source) : Source.parse (blanked source) = Source.parse source := by
  have hread : Source.statements (blanked source) = Source.statements source := by
    rw [Source.statements_eq_readLines, Source.statements_eq_readLines, splitOn_blanked]
    refine Eq.trans (Source.readLines_congr ?_) (congrArg (Source.readLines 1) (splitOn_eq source)).symm
    refine List.rel_append ?_ (List.forall₂_same.mpr fun line _ => .inl rfl)
    rw [List.forall₂_map_right_iff, List.forall₂_same]
    intro line hline
    by_cases hmark : mark <+: Utf8.trim (Lines.dropReturn line)
    · have hdirective := Directive.ofLine_ne_none_iff.mpr hmark
      have hplain := h _ (lines_eq source ▸ List.mem_map_of_mem hline) hdirective
      refine .inr ⟨if_pos hmark, by simpa using List.mem_takeWhile_imp hline, fun number => ?_⟩
      rw [← Source.readLine_dropReturn]
      exact (Directive.readLine_eq_none_iff_behindBlanks hdirective number).mpr hplain
    · exact .inl (if_neg hmark)
  rw [Source.parse, Source.parse, hread]

/-- In a source that can be parsed, other directives show when they are taken out. -/
theorem plain_of_parse_blanked {body : List Node} (h : Source.parse source = .ok body)
    (hblanked : Source.parse (blanked source) = .ok body) : Plain source := by
  intro line hline hdirective
  obtain ⟨i, hi⟩ := List.mem_iff_getElem?.mp hline
  rw [← Directive.readLine_eq_none_iff_behindBlanks hdirective ((1 + i : Nat) : Int)]
  by_contra hseen
  obtain ⟨hstatements, _⟩ := Source.of_parse h
  obtain ⟨statement, hmem, hread⟩ :=
    Source.exists_mem_of_readFrom (Source.statements_eq_ok_iff.mp hstatements).1 hi hseen
  -- A statement made of the line stands in the blanked source too, where its line is empty.
  obtain ⟨⟨j, other, hother, hplace, hsource⟩, htokens, _⟩ := Source.standsIn_of_parse hblanked hmem
  have hnumber := (Source.placed_of_readLine hread).1
  obtain rfl : j = i := by omega
  rw [lines_eq, List.getElem?_map] at hi
  obtain ⟨whole, hwhole, rfl⟩ := Option.map_eq_some_iff.mp hi
  have hblank : other = [] := by
    rw [splitOn_blanked, List.getElem?_append_left (by simpa using (List.getElem?_eq_some_iff.mp hwhole).1),
      List.getElem?_map, hwhole] at hother
    exact (Option.some.inj hother).symm.trans (if_pos (Directive.ofLine_ne_none_iff.mp hdirective))
  rw [hsource, hblank] at htokens
  cases htokens

/-- Directives are out of sight of the lexer where they are comments. A directive gives no statement and no
complaint exactly if its mark stands behind spaces and tabs alone. If that is so for all directives of a
source, it is parsed like the source with blank lines in their place; and a source that can be parsed
gives other trees than that if it is not so. -/
theorem directives_unseen_behind_blanks (source : Text) :
    (∀ line, Directive.ofLine line ≠ .ok none → ∀ number,
      (Source.readLine number line = .ok none ↔ Directive.BehindBlanks line)) ∧
    (Plain source → Source.parse (blanked source) = Source.parse source) ∧
    ∀ body, Source.parse source = .ok body → Source.parse (blanked source) = .ok body → Plain source :=
  ⟨fun _ hdirective number => Directive.readLine_eq_none_iff_behindBlanks hdirective number,
    Plain.parse_blanked, fun _ => plain_of_parse_blanked⟩

/-- A fixture with directives behind tabs, behind spaces that make up no level, and with a carriage
return. -/
def indented : Text := "\t #~ memory 0 3\r\n__plus 1\n  #~ desc adds up\n__plus 2\n#~ eof zero"

/-- The directives of the fixture may be taken out. -/
theorem directives_unseen_behind_blanks_indented :
    Directive.ofLine "  #~ desc adds up" ≠ .ok none ∧ Source.readLine 3 "  #~ desc adds up" = .ok none ∧
      Plain indented ∧ blanked indented = "\n__plus 1\n\n__plus 2\n" ∧
        Source.parse (blanked indented) = Source.parse indented := by
  obtain ⟨hline, hsource, _⟩ := directives_unseen_behind_blanks indented
  have hdirective : Directive.ofLine "  #~ desc adds up" ≠ .ok none :=
    Directive.ofLine_ne_none_iff.mpr (by decide +kernel)
  have hplain : Plain indented := by
    have hall : ∀ line ∈ (Lines.read indented).lines, Directive.mark <+: Utf8.trim line →
        Directive.BehindBlanks line := by decide +kernel
    exact fun line hmem hmark => hall line hmem (Directive.ofLine_ne_none_iff.mp hmark)
  exact ⟨hdirective, (hline _ hdirective 3).mpr (by decide +kernel), hplain, by decide +kernel,
    hsource hplain⟩

/-- A directive behind a form feed. -/
def paged : Text := "\x0c#~ memory 0 1"

/-- Behind a form feed the mark begins no comment: the line sets an expectation and is a statement, too, and
a source is parsed otherwise without it. -/
theorem directive_seen_behind_form_feed :
    Directive.ofLine paged = .ok (some (.cell 0 1)) ∧
      (∃ statement, Source.readLine 1 paged = .ok (some statement)) ∧
        ∃ body, Source.parse (paged ++ "\n__plus 1\n") = .ok body ∧
          Source.parse (blanked (paged ++ "\n__plus 1\n")) ≠ .ok body := by
  have hcell : (Directive.ofLine paged).toOption = some (some (.cell 0 1)) := by decide +kernel
  have hread : (Source.readLine 1 paged).toOption =
      some (some ⟨1, 0, ⟨1, 0, "\x0c#~"⟩, [⟨1, 4, "memory"⟩, ⟨1, 11, "0"⟩, ⟨1, 13, "1"⟩], paged⟩) := by
    decide +kernel
  have hparses : (Source.parse (paged ++ "\n__plus 1\n")).toOption.isSome := by decide +kernel
  obtain ⟨body, hbody⟩ := Option.isSome_iff_exists.mp hparses
  refine ⟨eq_ok_of_toOption hcell, ⟨_, eq_ok_of_toOption hread⟩, body, eq_ok_of_toOption hbody,
    fun hblanked => ?_⟩
  have hplain := plain_of_parse_blanked (eq_ok_of_toOption hbody) hblanked
  have hdirective : Directive.ofLine paged ≠ .ok none := by
    rw [eq_ok_of_toOption hcell]
    simp
  exact absurd (hplain paged (by decide +kernel) hdirective) (by decide +kernel)

end Fixture

end Tapestry

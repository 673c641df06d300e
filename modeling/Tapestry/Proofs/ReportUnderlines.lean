import Tapestry.Proofs.DiagnosticPlaces
import Tapestry.Proofs.UnitTexts

/-!
# What a report underlines

A report shows a line and, if the word to blame has the number of that line, marks under the word.
The line is a statement of the unit where the expansion stops. The word stands in that unit as well,
and as no two statements of a unit share a line, the marks are under the word itself.

There is one exception. A path that was written at a call in another unit is blamed where the unit it
names cannot be expanded. If the numbers of the two lines agree by chance then the marks are under
whatever stands there in the line shown.
-/

namespace Tapestry

variable {fault : Fault} {error : Error}

/-! ## Lines of a report -/

/-- The last line of a text is told by its last line feed. -/
theorem Text.append_lineFeed_inj {front other last tail : Text} (hlast : 10 ∉ last) (htail : 10 ∉ tail)
    (h : front ++ 10 :: last = other ++ 10 :: tail) : front = other ∧ last = tail := by
  rcases List.append_eq_append_iff.mp h with ⟨middle, rfl, hmiddle⟩ | ⟨middle, rfl, hmiddle⟩
  · cases middle with
    | nil => exact ⟨(List.append_nil _).symm, (List.cons.inj hmiddle).2⟩
    | cons b middle =>
      exact absurd ((List.cons.inj hmiddle).2 ▸ List.mem_append_right _ List.mem_cons_self) hlast
  · cases middle with
    | nil => exact ⟨List.append_nil _, (List.cons.inj hmiddle).2.symm⟩
    | cons b middle =>
      exact absurd ((List.cons.inj hmiddle).2 ▸ List.mem_append_right _ List.mem_cons_self) htail

namespace Statement

variable {statement : Statement}

/-- What a report puts before the source of a statement. -/
def margin (statement : Statement) : Text := Number.int statement.line ++ ": "

/-- A statement as a report shows it. -/
def shown (statement : Statement) : Text := statement.margin ++ statement.source

/-- A line that is shown has no line feed in it. -/
theorem lineFeed_not_mem_shown (hline : 0 < statement.line) (hsource : 10 ∉ statement.source) :
    10 ∉ statement.shown := by
  intro hmem
  rcases List.mem_append.mp hmem with hmargin | hmem
  · rcases List.mem_append.mp hmargin with hnumber | hcolon
    · exact absurd ((Number.isDigits_int (Int.le_of_lt hline)).digits 10 hnumber) (by decide)
    · exact absurd hcolon (by decide)
  · exact hsource hmem

/-- Behind its margin, a line is shown as it stands in its source. -/
theorem drop_shown (statement : Statement) (n : Nat) :
    statement.shown.drop (statement.margin.length + n) = statement.source.drop n := by
  rw [shown, List.drop_append, List.drop_of_length_le (Nat.le_add_right _ _), List.nil_append,
    Nat.add_sub_cancel_left]

/-- Somewhere in the line is a digit. -/
theorem exists_digit_mem_shown (hline : 0 < statement.line) :
    ∃ b ∈ statement.shown, Byte.isDigit b = true := by
  have hnumeral := Number.isDigits_int (Int.le_of_lt hline)
  obtain ⟨b, hb⟩ := List.exists_mem_of_ne_nil _ hnumeral.ne_nil
  exact ⟨b, List.mem_append_left _ (List.mem_append_left _ hb), hnumeral.digits b hb⟩

end Statement

namespace Error

/-- A line of marks under some bytes. -/
def marks (first count : Nat) : Text :=
  List.replicate first 32 ++ List.replicate count (Byte.ofChar '^')

/-- A report that ends with a line and, below it, marks under some of its bytes. -/
def Underlines (error : Error) (shown : Text) (first count : Nat) : Prop :=
  0 < count ∧ 10 ∉ shown ∧ ∃ above, error.report = above ++ 10 :: (shown ++ 10 :: marks first count)

/-- Marks are spaces and carets. -/
theorem mem_marks {first count : Nat} {b : UInt8} (h : b ∈ marks first count) :
    b = 32 ∨ b = Byte.ofChar '^' := by
  rcases List.mem_append.mp h with hspace | hmark
  · exact .inl (List.eq_of_mem_replicate hspace)
  · exact .inr (List.eq_of_mem_replicate hmark)

/-- Marks have no line feed in them. -/
theorem lineFeed_not_mem_marks (first count : Nat) : 10 ∉ marks first count := by
  intro hmem
  rcases mem_marks hmem with hspace | hmark
  · exact absurd hspace (by decide)
  · exact absurd hmark (by decide)

/-- Marks tell where they begin and how many there are. -/
theorem marks_inj {first count other more : Nat} (h : marks first count = marks other more) :
    first = other ∧ count = more := by
  have hspaces := congrArg (List.count 32) h
  have hmarks := congrArg (List.count (Byte.ofChar '^')) h
  have hdistinct : Byte.ofChar '^' ≠ 32 := by decide
  simp only [marks, List.count_append, List.count_replicate, beq_iff_eq, hdistinct, hdistinct.symm,
    if_true, if_false, Nat.add_zero, Nat.zero_add] at hspaces hmarks
  exact ⟨hspaces, hmarks⟩

/-- A line of marks is not the line of a statement. -/
theorem shown_ne_marks {statement : Statement} (hline : 0 < statement.line) (first count : Nat) :
    statement.shown ≠ marks first count := by
  intro heq
  obtain ⟨b, hb, hdigit⟩ := Statement.exists_digit_mem_shown hline
  rcases mem_marks (heq ▸ hb) with rfl | rfl
  · exact absurd hdigit (by decide)
  · exact absurd hdigit (by decide)

variable {error : Error} {statement : Statement} {token : Token}

/-- What stands above the line that a report shows. -/
def heading (error : Error) : Text := error.preamble ++ " === LINE ==="

/-- The title of the line ends in a line feed. -/
theorem title_feed : Text.ofString " === LINE ===\n" = Text.ofString " === LINE ===" ++ [10] := by
  decide

/-- A report whose word stands in the line shown ends in marks. -/
theorem report_of_marked (hline : error.line? = some statement) (hpos : 0 < statement.line)
    (htoken : error.token? = some token) (hsame : token.line = statement.line) :
    error.report = error.heading ++ 10 :: (statement.shown ++ 10 ::
      marks ((statement.margin.length : Int) + token.column).toNat (max token.width 1)) := by
  have hbreak : Text.ofString "\n" = [10] := by decide
  simp only [report, hline, if_neg (Int.not_le.mpr hpos), htoken, if_pos hsame, title_feed, hbreak]
  simp [heading, Statement.shown, Statement.margin, underline, marks]

/-- A report whose word stands elsewhere ends in the line shown. -/
theorem report_of_unmarked (hline : error.line? = some statement) (hpos : 0 < statement.line)
    (hother : ∀ token, error.token? = some token → token.line ≠ statement.line) :
    error.report = error.heading ++ 10 :: statement.shown := by
  simp only [report, hline, if_neg (Int.not_le.mpr hpos), title_feed]
  cases htoken : error.token? with
  | none => simp [heading, Statement.shown, Statement.margin]
  | some token =>
    simp only [if_neg (hother token htoken)]
    simp [heading, Statement.shown, Statement.margin]

/-- A report that shows a statement underlines the word to blame, if that has the number of the
line. -/
theorem underlines_iff (hline : error.line? = some statement) (hpos : 0 < statement.line)
    (hsource : 10 ∉ statement.source) {shown : Text} {first count : Nat} :
    error.Underlines shown first count ↔
      ∃ token, error.token? = some token ∧ token.line = statement.line ∧ shown = statement.shown ∧
        first = ((statement.margin.length : Int) + token.column).toNat ∧ count = max token.width 1 := by
  have hfeedless := Statement.lineFeed_not_mem_shown hpos hsource
  constructor
  · rintro ⟨_, hshown, above, hreport⟩
    have hreport : error.report = (above ++ 10 :: shown) ++ 10 :: marks first count := by
      rw [hreport, List.append_assoc, List.cons_append]
    by_cases hmarked : ∃ token, error.token? = some token ∧ token.line = statement.line
    · obtain ⟨token, htoken, hsame⟩ := hmarked
      rw [report_of_marked hline hpos htoken hsame, ← List.cons_append, ← List.append_assoc] at hreport
      obtain ⟨hfront, hmarks⟩ := Text.append_lineFeed_inj (lineFeed_not_mem_marks _ _)
        (lineFeed_not_mem_marks _ _) hreport
      obtain ⟨_, hlines⟩ := Text.append_lineFeed_inj hfeedless hshown hfront
      obtain ⟨hfirst, hcount⟩ := marks_inj hmarks
      exact ⟨token, htoken, hsame, hlines.symm, hfirst.symm, hcount.symm⟩
    · -- The report ends with the line shown, which has a number in front.
      have hother : ∀ token, error.token? = some token → token.line ≠ statement.line :=
        fun token htoken hsame => hmarked ⟨token, htoken, hsame⟩
      rw [report_of_unmarked hline hpos hother] at hreport
      obtain ⟨_, hlast⟩ := Text.append_lineFeed_inj hfeedless (lineFeed_not_mem_marks _ _) hreport
      exact absurd hlast (shown_ne_marks hpos first count)
  · rintro ⟨token, htoken, hsame, rfl, rfl, rfl⟩
    exact ⟨by omega, hfeedless, error.heading, report_of_marked hline hpos htoken hsame⟩

end Error

/-! ## Where an expansion stops -/

/-- The unit where an expansion stops, with the visits around the stop from the innermost outward. -/
def stopUnit (main : Text) (trail : List Visit) : Text := (trail.head?.map Visit.file).getD main

/-- A fault about a unit whose path was written at a call around, in another unit than the one where
the expansion stops. -/
def Fault.PathFromElsewhere (fault : Fault) (trail : List Visit) (token : Token) : Prop :=
  (fault.kind = .importFailed ∨ fault.kind = .importCycle) ∧
    ∃ visit around caller, trail = visit :: around ∧ caller ∈ around ∧ caller.file ≠ visit.file ∧
      token ∈ caller.node.arguments

/-- A fault shows the line it names, or else that of the innermost visit. -/
theorem Error.line?_of_fault (h : error.failure = .fault fault) :
    error.line? = fault.line.or (error.trail.head?.map fun visit => visit.node.head) := by
  obtain ⟨kind, detail, token, line, causes⟩ := fault
  rw [line?, h]
  cases line with
  | none => rfl
  | some statement => rfl

/-- An error blames the word that its fault blames. -/
theorem Error.token?_of_fault (h : error.failure = .fault fault) : error.token? = fault.token := by
  rw [token?, h]

/-- The report of a fault shows a statement of the expression that the expansion stops at. -/
theorem Expansion.exists_line?_of_fails {setup : Setup} {levels : Nat} {around : List Visit}
    {record : Visit} {rest : List Node} {state : State}
    (h : Frame.Fails setup ⟨levels, around, record.file, record.node :: rest, state⟩ (.fault fault)) :
    ∃ statement ∈ record.node.statements, fault.line.or (some record.node.head) = some statement := by
  cases hline : fault.line with
  | none => exact ⟨record.node.head, record.node.head_mem_statements, rfl⟩
  | some statement =>
    refine ⟨statement, ?_, rfl⟩
    cases h with
    | tooDeep => cases hline
    | step failed =>
      have hwithin := within_step setup.loader state
        (Visit.start around record.node record.file state.env)
      rw [show step setup.loader state _ = _ from failed] at hwithin
      exact hwithin.2 statement hline

namespace Compiler

variable {compiler : Compiler} {texts : Text → Option Text} {name source : Text} {error : Error}
  {fault : Fault}

/-- A build that fails for a fault of the language shows a statement of the unit it stops in. The
word to blame stands in that unit too, if it is not a path from elsewhere. -/
theorem blames_of_build (hreads : Loader.ReadsFrom compiler.loader texts)
    (h : compiler.build name source = some (.error error)) (hfault : error.failure = .fault fault) :
    ∃ text statement, unitText name source texts (stopUnit name error.trail) = some text ∧
      statement.StandsIn text ∧ error.line? = some statement ∧
        ∀ token, fault.token = some token → 0 ≤ token.column ∧ 0 < token.width ∧
          ((∃ own : Statement, own.StandsIn text ∧ token ∈ own.tokens) ∨
            fault.PathFromElsewhere error.trail token) := by
  obtain ⟨setup, hworks, hresult⟩ := exists_setup_of_build h
  rw [← hworks.loader] at hreads
  have hfails := Expansion.Setup.failsAt_of_build hresult
  rw [Error.line?_of_fault hfault]
  rw [hfault] at hfails
  generalize error.trail = trail at hfails
  cases hfails with
  | unread failed =>
    obtain ⟨statement, hstands, hline, hhead⟩ := Source.exists_standsIn_of_parse_error failed
    refine ⟨source, statement, if_pos rfl, hstands, ?_, fun token htoken => ?_⟩
    · rw [hline, Option.some_or]
    · obtain rfl := Option.some.inj (hhead.symm.trans htoken)
      have hmem : statement.head ∈ statement.tokens := List.mem_cons_self
      exact ⟨(hstands.line_of_mem hmem).2, hstands.width_pos_of_mem hmem, .inl ⟨statement, hstands, hmem⟩⟩
  | @reached body levels record around rest state parsed point fails =>
    obtain ⟨text, htext, hstands⟩ := (Expansion.writtenAt_of_reached hreads parsed point record.node
      List.mem_cons_self).exists_standsIn
    obtain ⟨statement, hmem, hline⟩ := Expansion.exists_line?_of_fails fails
    refine ⟨text, statement, htext, hstands statement hmem, hline, fun token htoken => ?_⟩
    rcases Expansion.blames_of_fails point fails with
      (⟨blamed, hword, hblamed⟩ | ⟨hnone, _, _⟩) | ⟨hkind, caller, hcaller, blamed, hword, hblamed⟩
    · obtain rfl := Option.some.inj (hblamed.symm.trans htoken)
      obtain ⟨own, hown, hin⟩ := List.mem_flatMap.mp hword
      have hthere := hstands own hown
      exact ⟨(hthere.line_of_mem hin).2, hthere.width_pos_of_mem hin, .inl ⟨own, hthere, hin⟩⟩
    · rw [hnone] at htoken
      cases htoken
    · -- A path that came in through a variable was written at a visit around, maybe in this unit.
      obtain rfl := Option.some.inj (hblamed.symm.trans htoken)
      obtain ⟨other, hother, hin⟩ := List.mem_flatMap.mp (caller.node.arguments_subset_words hword)
      obtain ⟨written, hwritten, hwords⟩ := (Expansion.writtenAt_of_mem_trail hreads parsed point
        caller hcaller).exists_standsIn
      have hthere := hwords other hother
      refine ⟨(hthere.line_of_mem hin).2, hthere.width_pos_of_mem hin, ?_⟩
      by_cases hfile : caller.file = record.file
      · obtain rfl : written = text := Option.some.inj (hwritten.symm.trans (hfile ▸ htext))
        exact .inl ⟨other, hthere, hin⟩
      · exact .inr ⟨hkind, record, around, caller, rfl, hcaller, hfile, hword⟩

/-- The report of a build that fails for a fault of the language ends with marks exactly if the word
to blame has the number of the line shown. The line is then a statement of the unit where the
expansion stops, and the marks reach from the column of the word on as far as the word does. The word
is a word of the statement, so that the marks are under it. The one exception is a path that was
written at a call in another unit. -/
theorem reports_underline_blamed_words (compiler : Compiler) (name source : Text)
    {texts : Text → Option Text} {error : Error} {fault : Fault}
    (hreads : Loader.ReadsFrom compiler.loader texts)
    (h : compiler.build name source = some (.error error)) (hfault : error.failure = .fault fault) :
    ((∃ shown first count, error.Underlines shown first count) ↔
      ∃ token statement, fault.token = some token ∧ error.line? = some statement ∧
        token.line = statement.line) ∧
    ∀ shown first count, error.Underlines shown first count →
      ∃ (token : Token) (text : Text) (statement : Statement), fault.token = some token ∧
        unitText name source texts (stopUnit name error.trail) = some text ∧ statement.StandsIn text ∧
        shown = statement.shown ∧ first = statement.margin.length + token.column.toNat ∧
        count = token.width ∧
          (token ∈ statement.tokens ∧ (shown.drop first).take count = token.text ∨
            fault.PathFromElsewhere error.trail token) := by
  obtain ⟨text, statement, htext, hstands, hline, hblames⟩ := blames_of_build hreads h hfault
  rw [← Error.token?_of_fault hfault] at hblames ⊢
  have hpos := hstands.line_pos
  have hfeedless := hstands.lineFeed_not_mem
  refine ⟨⟨?_, ?_⟩, ?_⟩
  · rintro ⟨shown, first, count, hmarked⟩
    obtain ⟨token, htoken, hsame, _⟩ := (Error.underlines_iff hline hpos hfeedless).mp hmarked
    exact ⟨token, statement, htoken, hline, hsame⟩
  · rintro ⟨token, other, htoken, hother, hsame⟩
    obtain rfl : statement = other := Option.some.inj (hline.symm.trans hother)
    exact ⟨_, _, _, (Error.underlines_iff hline hpos hfeedless).mpr ⟨token, htoken, hsame, rfl, rfl, rfl⟩⟩
  · intro shown first count hmarked
    obtain ⟨token, htoken, hsame, rfl, hfirst, hcount⟩ :=
      (Error.underlines_iff hline hpos hfeedless).mp hmarked
    obtain ⟨hcolumn, hwidth, hwhere⟩ := hblames token htoken
    replace hfirst : first = statement.margin.length + token.column.toNat := by omega
    replace hcount : count = token.width := by omega
    refine ⟨token, text, statement, htoken, htext, hstands, rfl, hfirst, hcount, ?_⟩
    apply hwhere.imp_left
    rintro ⟨own, hown, hin⟩
    -- The line of the word is the line shown, and it holds one statement only.
    obtain rfl : own = statement := hown.unique hstands ((hown.line_of_mem hin).1.symm.trans hsame)
    refine ⟨hin, ?_⟩
    rw [hfirst, hcount, Statement.drop_shown]
    exact hown.take_drop_of_mem hin

/-- What a report that underlines a word is made of: the kind of the fault, the word to blame and the
line shown. -/
def underlined? : Except Error Build → Option (FaultKind × Token × Statement)
  | .ok _ => none
  | .error error => error.kind?.bind fun kind => error.token?.bind fun token =>
      error.line?.bind fun statement =>
        if token.line = statement.line then some (kind, token, statement) else none

/-- A report that underlines a word does so below the line shown, from the column of the word on. -/
theorem underlines_of_underlined? {result : Except Error Build} {kind : FaultKind} {token : Token}
    {statement : Statement} (h : underlined? result = some (kind, token, statement))
    (hpos : 0 < statement.line) (hsource : 10 ∉ statement.source) :
    ∃ error fault, result = .error error ∧ error.failure = .fault fault ∧ fault.kind = kind ∧
      fault.token = some token ∧ error.Underlines statement.shown
        ((statement.margin.length : Int) + token.column).toNat (max token.width 1) := by
  cases result with
  | ok build => cases h
  | error error =>
    obtain ⟨failure, context⟩ := error
    cases failure with
    | trouble trouble => cases h
    | fault fault =>
      obtain ⟨_, htoken, h⟩ := Option.bind_eq_some_iff.mp h
      obtain ⟨_, hline, h⟩ := Option.bind_eq_some_iff.mp h
      split at h
      case isTrue hsame =>
        obtain ⟨rfl, hrest⟩ := Prod.mk.inj (Option.some.inj h)
        cases hrest
        exact ⟨_, fault, rfl, rfl, rfl, htoken,
          (Error.underlines_iff hline hpos hsource).mpr ⟨_, htoken, hsame, rfl, rfl, rfl⟩⟩
      case isFalse => cases h

/-- A library with a template that asks for a unit and one that cannot be expanded. -/
def fetchers : Library :=
  ⟨[("lib", Text.ofString "macro global bring str path\n    import path\n" ++
    "macro global stray\n    nope 1\n")]⟩

/-- The line of the template that cannot be expanded. -/
def strayLine : Statement := ⟨4, 1, ⟨4, 4, "nope"⟩, [⟨4, 9, "1"⟩], "    nope 1"⟩

/-- A call that cannot be resolved is underlined in the template of another unit. -/
theorem reports_underline_blamed_words_stray :
    ∃ (error : Error) (fault : Fault) (token : Token) (text : Text) (statement : Statement),
      build ⟨fetchers.loader, 8⟩ "main" "import 'lib'\nstray\n" = some (.error error) ∧
        error.failure = .fault fault ∧ error.Underlines "4:     nope 1" 7 4 ∧ fault.token = some token ∧
          unitText "main" "import 'lib'\nstray\n" fetchers.text? (stopUnit "main" error.trail) =
            some text ∧
            statement.StandsIn text ∧ token ∈ statement.tokens ∧ token.text = "nope" := by
  have hplace : underlined? (Expansion.Setup.build ⟨fetchers.loader, 8⟩ "main" "import 'lib'\nstray\n") =
      some (.functionNotFound, strayLine.head, strayLine) := by decide +kernel
  obtain ⟨error, fault, hresult, hfault, hkind, htoken, hmarked⟩ :=
    underlines_of_underlined? hplace (by decide) (by decide)
  have hbuild : build ⟨fetchers.loader, 8⟩ "main" "import 'lib'\nstray\n" = some (.error error) :=
    (build_of_limit rfl _ _).trans (congrArg some hresult)
  have hmarked : error.Underlines "4:     nope 1" 7 4 := by
    have hshown : strayLine.shown = "4:     nope 1" := by decide +kernel
    have hmargin : strayLine.margin.length = 3 := by decide +kernel
    rw [hshown, hmargin] at hmarked
    exact hmarked
  obtain ⟨token, text, statement, hblamed, htext, hstands, _, _, _, hword⟩ :=
    (reports_underline_blamed_words ⟨fetchers.loader, 8⟩ "main" "import 'lib'\nstray\n"
      fetchers.readsFrom hbuild hfault).2 _ _ _ hmarked
  obtain rfl : token = strayLine.head := Option.some.inj (hblamed.symm.trans htoken)
  rcases hword with ⟨hmem, _⟩ | ⟨helsewhere, _⟩
  · exact ⟨error, fault, _, text, statement, hbuild, hfault, hmarked, htoken, htext, hstands, hmem, rfl⟩
  · rw [hkind] at helsewhere
    rcases helsewhere with hfailed | hcycle
    · cases hfailed
    · cases hcycle

/-- The path of a call is underlined in a line of the unit that asks for it, where other bytes
stand. -/
theorem report_underlines_beside_path :
    ∃ error fault token shown first count,
      build ⟨fetchers.loader, 8⟩ "main" "import 'lib'\nbring 'x'\n" = some (.error error) ∧
        error.failure = .fault fault ∧ error.Underlines shown first count ∧ fault.token = some token ∧
          count = token.width ∧ (shown.drop first).take count ≠ token.text := by
  have hplace : underlined? (Expansion.Setup.build ⟨fetchers.loader, 8⟩ "main" "import 'lib'\nbring 'x'\n") =
      some (.importFailed, ⟨2, 6, "'x'"⟩,
        ⟨2, 1, ⟨2, 4, "import"⟩, [⟨2, 11, "path"⟩], "    import path"⟩) := by decide +kernel
  obtain ⟨error, fault, hresult, hfault, _, htoken, hmarked⟩ :=
    underlines_of_underlined? hplace (by decide) (by decide)
  have hbuild : build ⟨fetchers.loader, 8⟩ "main" "import 'lib'\nbring 'x'\n" = some (.error error) :=
    (build_of_limit rfl _ _).trans (congrArg some hresult)
  exact ⟨error, fault, _, _, _, _, hbuild, hfault, hmarked, htoken, by decide, by decide +kernel⟩

end Compiler

end Tapestry

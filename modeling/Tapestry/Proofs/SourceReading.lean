import Tapestry.Proofs.BlockNesting
import Tapestry.Proofs.LineReading

/-!
# Reading a whole source

The statements of a source are those of its lines, read one by one until a line cannot be read. The
numbers of the lines only go into places, so the same lines further down give the same statements
but for their places.

A source that can be parsed has layered trees, and layered trees are what their statements are
parsed as. So trees whose statements agree but for their places agree but for their places.
-/

namespace Tapestry

/-! ## Trees without their places -/

namespace Node

mutual

/-- A tree apart from where its statements stand: its shape, its levels and its words. -/
def unplaced : Node → Node
  | call head => call head.unplaced
  | block head body => block head.unplaced (bodyUnplaced body)
  | splice head owner => splice head.unplaced owner

/-- Each tree apart from where its statements stand. -/
def bodyUnplaced : List Node → List Node
  | [] => []
  | node :: rest => node.unplaced :: bodyUnplaced rest

end

namespace Layered

variable {level : Int} {trees others : List Node}

/-- Trees keep their levels without places. -/
theorem unplaced (h : Layered level trees) : Layered level (bodyUnplaced trees) := by
  induction h with
  | nil => exact .nil
  | call depth_eq _ ih => exact .call depth_eq ih
  | @block level head body rest depth_eq owns _ _ ihInside ihRest =>
    refine .block depth_eq ?_ ihInside ihRest
    cases body with
    | nil => exact absurd rfl owns
    | cons node nodes => exact List.cons_ne_nil _ _

/-- The statements of trees without places are theirs without places. -/
theorem bodyStatements_unplaced (h : Layered level trees) :
    bodyStatements (bodyUnplaced trees) = (bodyStatements trees).map Statement.unplaced := by
  induction h with
  | nil => rfl
  | call _ _ ih =>
    rw [bodyStatements_call, List.map_cons, ← ih]
    rfl
  | block _ _ _ _ ihInside ihRest =>
    rw [bodyStatements_block, List.map_cons, List.map_append, ← ihInside, ← ihRest]
    rfl

/-- Layered trees with the same statements but for their places are the same but for their places. -/
theorem unplaced_unique (h : Layered level trees) (hothers : Layered level others)
    (heq : (bodyStatements trees).map Statement.unplaced =
      (bodyStatements others).map Statement.unplaced) :
    bodyUnplaced trees = bodyUnplaced others := by
  have hleaves : Leaves level [] := fun _ hnone => absurd hnone (Option.not_mem_none _)
  refine (h.unplaced.unique hothers.unplaced hleaves hleaves ?_).1
  rw [h.bodyStatements_unplaced, hothers.bodyStatements_unplaced, heq]

end Layered

end Node

namespace Source

variable {found front : List Statement} {previous : Int} {text : Text} {lines : List Text}
  {number : Nat} {statement : Statement}

/-! ## Lines one by one -/

/-- Read lines in order, numbered from the first on, up to one that cannot be read. -/
def readFrom (number : Nat) : List Text → Except Fault (List Statement)
  | [] => .ok []
  | line :: rest =>
    (readLine (number : Nat) line).bind fun first =>
      (readFrom (number + 1) rest).map (first.toList ++ ·)

/-- Lines are read one after the other. -/
theorem readFrom_append (number : Nat) (front back : List Text) :
    readFrom number (front ++ back) =
      (readFrom number front).bind fun found =>
        (readFrom (number + front.length) back).map (found ++ ·) := by
  induction front generalizing number with
  | nil => cases h : readFrom number back <;> simp [readFrom, Except.bind, Except.map, h]
  | cons line rest ih =>
    have hlength : number + 1 + rest.length = number + (rest.length + 1) := by omega
    rw [List.cons_append, readFrom, readFrom, ih, List.length_cons, hlength]
    cases readLine number line with
    | error fault => rfl
    | ok first =>
      cases readFrom (number + 1) rest with
      | error fault => rfl
      | ok found =>
        cases readFrom (number + (rest.length + 1)) back with
        | error fault => rfl
        | ok later => simp [Except.bind, Except.map]

/-- What stops at a line. -/
def fault? : Except Fault (Option Statement) → Option Fault
  | .ok _ => none
  | .error fault => some fault

/-- What a line that can be read holds. -/
def statement? : Except Fault (Option Statement) → Option Statement
  | .ok statement => statement
  | .error _ => none

/-- What each line gives, numbered from the first on. -/
def results (number : Nat) (lines : List Text) : List (Except Fault (Option Statement)) :=
  (lines.zipIdx number).map fun entry => readLine (entry.2 : Nat) entry.1

/-- Reading lines one by one gives the statements up to the first line that stops it. -/
theorem readFrom_eq (number : Nat) (lines : List Text) :
    readFrom number lines =
      ((results number lines).findSome? fault?).elim
        (.ok (((results number lines).takeWhile Except.isOk).filterMap statement?)) .error := by
  induction lines generalizing number with
  | nil => rfl
  | cons line rest ih =>
    have hresults : results number (line :: rest) =
        readLine (number : Nat) line :: results (number + 1) rest := rfl
    rw [readFrom, ih, hresults]
    cases hline : readLine (number : Nat) line with
    | error fault => rfl
    | ok first =>
      rw [List.findSome?_cons_of_isNone (by rfl), List.takeWhile_cons_of_pos (by rfl)]
      cases hstop : (results (number + 1) rest).findSome? fault? with
      | some fault => rfl
      | none => cases first <;> rfl

/-- A text is read up to the first line that stops it, or that is too long. -/
theorem stop_lex (text : Text) :
    (lex text).stop =
      ((results 1 (Lines.read text).lines).findSome? fault?).elim
        (if (Lines.read text).overlong then some (.trouble .lineTooLong) else none)
        (some ∘ Failure.fault) := by
  unfold lex
  dsimp only
  split
  case h_1 fault hfault =>
    have hfound : (results 1 (Lines.read text).lines).findSome? fault? = some fault := hfault
    rw [hfound]
    rfl
  case h_2 hnone =>
    have hfound : (results 1 (Lines.read text).lines).findSome? fault? = none := hnone
    rw [hfound]
    rfl

/-- The statements of a text, its lines read one by one. -/
theorem statements_eq (text : Text) :
    statements text =
      ((readFrom 1 (Lines.read text).lines).mapError Failure.fault).bind fun found =>
        if (Lines.read text).overlong then .error (.trouble .lineTooLong) else .ok found := by
  have hstatements : (lex text).statements =
      ((results 1 (Lines.read text).lines).takeWhile Except.isOk).filterMap statement? := rfl
  rw [statements, hstatements, readFrom_eq, stop_lex]
  cases (results 1 (Lines.read text).lines).findSome? fault? with
  | some fault => rfl
  | none => cases (Lines.read text).overlong <;> rfl

/-- The statements of a text are those of its lines, if none of these is too long. -/
theorem statements_eq_ok_iff :
    statements text = .ok found ↔
      readFrom 1 (Lines.read text).lines = .ok found ∧ (Lines.read text).overlong = false := by
  rw [statements_eq]
  cases readFrom 1 (Lines.read text).lines with
  | error fault => simp [Except.mapError, Except.bind]
  | ok others => cases (Lines.read text).overlong <;> simp [Except.mapError, Except.bind]

/-- Every statement read is the statement of a line. -/
theorem exists_readLine_of_mem (h : readFrom number lines = .ok found) (hmem : statement ∈ found) :
    ∃ i line, lines[i]? = some line ∧ readLine ((number + i : Nat) : Int) line = .ok (some statement) := by
  induction lines generalizing number found with
  | nil =>
    cases h
    cases hmem
  | cons line rest ih =>
    obtain ⟨first, hfirst, h⟩ := exists_of_bind_eq_ok h
    obtain ⟨later, hlater, rfl⟩ := exists_of_map_eq_ok h
    rcases List.mem_append.mp hmem with hmem | hmem
    · obtain rfl : first = some statement := Option.mem_toList.mp hmem
      exact ⟨0, line, rfl, hfirst⟩
    · obtain ⟨i, other, hline, hread⟩ := ih hlater hmem
      rw [Nat.add_right_comm] at hread
      exact ⟨i + 1, other, hline, hread⟩

/-- The number of a line tells nothing but places. -/
theorem readLine_renumber {number : Int} (other : Int) {found : Option Statement}
    (h : readLine number text = .ok found) :
    ∃ again, readLine other text = .ok again ∧
      again.map Statement.unplaced = found.map Statement.unplaced := by
  have hwords : (tokens number (Text.dropRight isTrailing text)).map Token.text =
      (tokens other (Text.dropRight isTrailing text)).map Token.text := by
    rw [map_text_tokens, map_text_tokens]
  rcases readLine_cases number text with ⟨htokens, hread⟩ | ⟨first, htokens, hdepth, hread⟩
  · rcases readLine_cases other text with ⟨_, hagain⟩ | ⟨second, hsecond, _, _⟩
    · rw [h] at hread
      exact ⟨none, hagain, by rw [Except.ok.inj hread]⟩
    · rw [htokens, ← hsecond] at hwords
      cases hwords
  · rcases readLine_cases other text with ⟨hnone, _⟩ | ⟨second, hsecond, hlevel, hagain⟩
    · rw [hnone, ← htokens] at hwords
      cases hwords
    · rw [h] at hread
      split at hread
      case isTrue hindented =>
        rw [if_pos hindented] at hagain
        refine ⟨some second, hagain, ?_⟩
        rw [← htokens, ← hsecond] at hwords
        have hsame := Statement.unplaced_eq (hdepth.trans hlevel.symm) hwords
        rw [Except.ok.inj hread, Option.map_some, Option.map_some, hsame]
      case isFalse => cases hread

/-- Lines that can be read can be read anywhere, with the same statements but for their places. -/
theorem readFrom_renumber (other : Nat) (h : readFrom number lines = .ok found) :
    ∃ again, readFrom other lines = .ok again ∧
      again.map Statement.unplaced = found.map Statement.unplaced := by
  induction lines generalizing number other found with
  | nil => exact ⟨[], rfl, by rw [← Except.ok.inj h]⟩
  | cons line rest ih =>
    obtain ⟨first, hfirst, h⟩ := exists_of_bind_eq_ok h
    obtain ⟨later, hlater, rfl⟩ := exists_of_map_eq_ok h
    obtain ⟨first', hfirst', hsame⟩ := readLine_renumber (other : Nat) hfirst
    obtain ⟨later', hlater', hrest⟩ := ih (other + 1) hlater
    have hstatements : first'.toList.map Statement.unplaced = first.toList.map Statement.unplaced := by
      rw [← Option.toList_map, ← Option.toList_map, hsame]
    refine ⟨first'.toList ++ later', ?_, ?_⟩
    · rw [readFrom, hfirst', hlater']
      rfl
    · rw [List.map_append, List.map_append, hstatements, hrest]

/-! ## From statements to trees -/

/-- Statements behind a level rise by one at most if those in front do and the others do behind them. -/
theorem risesFrom_append {back : List Statement} :
    RisesFrom previous (front ++ back) ↔
      RisesFrom previous front ∧ RisesFrom (lastLevel previous front) back := by
  induction front generalizing previous with
  | nil => exact (and_iff_right (List.isChain_singleton _)).symm
  | cons statement rest ih =>
    rw [List.cons_append, risesFrom_cons, risesFrom_cons, ih, lastLevel_cons, and_assoc]

/-- Statements that rise by one at most do so behind a deeper level too. -/
theorem RisesFrom.of_le {deeper : Int} {rest : List Statement} (h : RisesFrom previous rest)
    (hle : previous ≤ deeper) : RisesFrom deeper rest := by
  cases rest with
  | nil => exact List.isChain_singleton _
  | cons statement rest =>
    rw [risesFrom_cons] at h ⊢
    exact ⟨by omega, h.2⟩

/-- Only the levels of statements count for how they rise. -/
theorem RisesFrom.of_unplaced {others : List Statement} (h : RisesFrom previous found)
    (heq : others.map Statement.unplaced = found.map Statement.unplaced) :
    RisesFrom previous others := by
  have hlevels (l : List Statement) :
      l.map Statement.depth = (l.map Statement.unplaced).map Statement.depth := by
    rw [List.map_map]
    rfl
  rw [RisesFrom, hlevels, heq, ← hlevels]
  exact h

/-- Statements below the root are nested into layered trees if they rise by one at most. Otherwise the
first that rises by more is to blame. -/
theorem nest_cases (hdepths : ∀ s ∈ found, 0 ≤ s.depth) :
    (RisesFrom (-1) found ∧ ∃ trees, nest found = .ok trees ∧ Node.Layered 0 trees ∧
      Node.bodyStatements trees = found) ∨
    ∃ front statement back, found = front ++ statement :: back ∧ RisesFrom (-1) front ∧
      lastLevel (-1) front + 1 < statement.depth ∧
        nest found = .error (.jump (lastLevel (-1) front) statement) := by
  rcases nestFrom_cases (Ready.start found) hdepths with
    ⟨hrises, last, hlast, hlayered⟩ | ⟨front, statement, back, hsplit, hfront, hjump, herror⟩
  · have hnest : nest found = .ok (OpenBlocks.finish last.inner last.outer) := by
      rw [nest, hlast]
      rfl
    exact .inl ⟨hrises, _, hnest, hlayered, bodyStatements_of_nest hnest⟩
  · refine .inr ⟨front, statement, back, hsplit, hfront, hjump, ?_⟩
    rw [nest, herror]
    rfl

/-- There is one statement that is the first to rise by more than one. -/
theorem jump_unique {front' back back' : List Statement} {statement' : Statement}
    (hsame : front ++ statement :: back = front' ++ statement' :: back')
    (hfront : RisesFrom (-1) front) (hjump : lastLevel (-1) front + 1 < statement.depth)
    (hfront' : RisesFrom (-1) front') (hjump' : lastLevel (-1) front' + 1 < statement'.depth) :
    front = front' ∧ statement = statement' := by
  rcases List.append_eq_append_iff.mp hsame with ⟨between, rfl, hrest⟩ | ⟨between, rfl, hrest⟩
  · cases between with
    | nil =>
      rw [List.nil_append] at hrest
      exact ⟨(List.append_nil front).symm, (List.cons.inj hrest).1⟩
    | cons other between =>
      obtain ⟨rfl, _⟩ := List.cons.inj hrest
      exact absurd hfront' (not_risesFrom_append hjump between)
  · cases between with
    | nil =>
      rw [List.nil_append] at hrest
      exact ⟨List.append_nil front', (List.cons.inj hrest).1.symm⟩
    | cons other between =>
      obtain ⟨rfl, _⟩ := List.cons.inj hrest
      exact absurd hfront (not_risesFrom_append hjump' between)

section Parsed

variable {text : Text} {found : List Statement} {body : List Node}

/-- The statements of a text stand below the root. -/
theorem depth_nonneg_of_statements (h : statements text = .ok found) :
    ∀ s ∈ found, 0 ≤ s.depth := by
  intro s hs
  obtain ⟨_, _, _, hline⟩ := exists_readLine_of_mem (statements_eq_ok_iff.mp h).1 hs
  rw [(words_of_readLine hline).2.2]
  exact Int.natCast_nonneg _

/-- A text whose statements are read is parsed as they are nested. -/
theorem parse_eq_nest (h : statements text = .ok found) :
    parse text = (nest found).mapError Misplaced.failure := by
  rw [parse, h]
  rfl

/-- What a text is parsed as: layered trees if its statements rise by one at most. -/
theorem parse_cases (h : statements text = .ok found) :
    (RisesFrom (-1) found ∧ ∃ trees, parse text = .ok trees ∧ Node.Layered 0 trees ∧
      Node.bodyStatements trees = found) ∨
    ∃ front statement back, found = front ++ statement :: back ∧ RisesFrom (-1) front ∧
      lastLevel (-1) front + 1 < statement.depth ∧
        parse text = .error (.fault (levelJump (lastLevel (-1) front) statement)) := by
  rw [parse_eq_nest h]
  rcases nest_cases (depth_nonneg_of_statements h) with
    ⟨hrises, trees, hnest, hlayered⟩ | ⟨front, statement, back, hsplit, hfront, hjump, hnest⟩
  · rw [hnest]
    exact .inl ⟨hrises, trees, rfl, hlayered⟩
  · rw [hnest]
    exact .inr ⟨front, statement, back, hsplit, hfront, hjump, rfl⟩

/-- What parsing a text rests on. -/
theorem of_parse (h : parse text = .ok body) :
    statements text = .ok (Node.bodyStatements body) ∧ RisesFrom (-1) (Node.bodyStatements body) ∧
      Node.Layered 0 body := by
  have hstatements := statements_of_parse h
  refine ⟨hstatements, ?_⟩
  rcases parse_cases hstatements with ⟨hrises, trees, htrees, hlayered, _⟩ | ⟨_, _, _, _, _, _, herror⟩
  · rw [h] at htrees
    cases htrees
    exact ⟨hrises, hlayered⟩
  · rw [h] at herror
    cases herror

/-- Statements that are those of layered trees, and rise by one at most, are parsed as these trees. -/
theorem parse_of_layered (h : statements text = .ok (Node.bodyStatements body))
    (hrises : RisesFrom (-1) (Node.bodyStatements body)) (hlayered : Node.Layered 0 body) :
    parse text = .ok body := by
  rcases parse_cases h with ⟨_, trees, htrees, hother, hsame⟩ | ⟨front, statement, back, hsplit, _, hjump, _⟩
  · have hleaves : Node.Leaves 0 [] := fun _ hnone => absurd hnone (Option.not_mem_none _)
    obtain ⟨rfl, _⟩ := hother.unique hlayered hleaves hleaves (by rw [hsame])
    exact htrees
  · rw [hsplit] at hrises
    exact absurd hrises (not_risesFrom_append hjump back)

end Parsed

end Source

end Tapestry

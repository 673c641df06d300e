import Tapestry.Proofs.DepthLimit
import Tapestry.Proofs.SourceReading

/-!
# Appended source

A text behind a line feed does not change how the lines in front of it are read, since a text that
can be parsed begins at the top level and closes all blocks. So the trees in front stay as they are.
They are expanded as if nothing followed, because an expansion looks at what it has done so far and
never ahead, and whatever it does later comes behind.
-/

namespace Tapestry

/-! ## Lines -/

namespace Lines

variable (front back : Text) {first : List Text}

/-- Behind a line feed new pieces begin. An empty piece stands before them if the text in front has
ended its last line. -/
theorem exists_pieces_append :
    ∃ gap, (gap = [] ∨ gap = [[]]) ∧
      pieces (front ++ 10 :: back) = pieces front ++ gap ++ pieces back := by
  have hsplit : (front ++ 10 :: back).splitOn 10 = front.splitOn 10 ++ back.splitOn 10 :=
    List.splitOn_append_cons_self front back
  have hlast := List.getLast?_append_of_ne_nil (front.splitOn 10) (List.splitOn_ne_nil 10 back)
  have hback : pieces (front ++ 10 :: back) = front.splitOn 10 ++ pieces back := by
    rw [pieces, pieces, hsplit, hlast]
    split
    · exact List.dropLast_append_of_ne_nil (List.splitOn_ne_nil 10 back)
    · rfl
  have hfront : ∃ gap, (gap = [] ∨ gap = [[]]) ∧ front.splitOn 10 = pieces front ++ gap := by
    rw [pieces]
    by_cases hended : (front.splitOn 10).getLast? = some []
    · obtain ⟨others, hothers⟩ := List.getLast?_eq_some_iff.mp hended
      exact ⟨[[]], .inr rfl, by rw [if_pos hended, hothers, List.dropLast_concat]⟩
    · exact ⟨[], .inl rfl, by rw [if_neg hended, List.append_nil]⟩
  obtain ⟨gap, hgap, hfront⟩ := hfront
  exact ⟨gap, hgap, by rw [hback, hfront]⟩

/-- The lines that pieces are read as, up to the first that is too long. -/
def readPieces (all : List Text) : Reading :=
  { lines := (all.takeWhile (·.length < limit)).map dropReturn
    overlong := (all.takeWhile (·.length < limit)).length < all.length }

/-- Reading that has stopped goes no further. -/
theorem readPieces_append_of_overlong (h : (readPieces first).overlong = true) (second : List Text) :
    readPieces (first ++ second) = readPieces first := by
  have hlt : (first.takeWhile (·.length < limit)).length < first.length := by simpa [readPieces] using h
  have htake : (first ++ second).takeWhile (·.length < limit) = first.takeWhile (·.length < limit) := by
    rw [List.takeWhile_append, if_neg (Nat.ne_of_lt hlt)]
  have hlonger : (first.takeWhile (·.length < limit)).length < (first ++ second).length := by
    rw [List.length_append]
    omega
  rw [readPieces, readPieces, htake, decide_eq_true hlt, decide_eq_true hlonger]

/-- Reading that has not stopped goes on with what follows. -/
theorem readPieces_append (h : (readPieces first).overlong = false) (second : List Text) :
    readPieces (first ++ second) =
      ⟨(readPieces first).lines ++ (readPieces second).lines, (readPieces second).overlong⟩ := by
  have hle : first.length ≤ (first.takeWhile (·.length < limit)).length := by
    simpa [readPieces] using h
  have hfront : first.takeWhile (·.length < limit) <+: first := List.takeWhile_prefix _
  have hall : first.takeWhile (·.length < limit) = first := hfront.eq_of_length_le hle
  have htake : (first ++ second).takeWhile (·.length < limit) =
      first ++ second.takeWhile (·.length < limit) := by
    rw [List.takeWhile_append, if_pos (congrArg List.length hall)]
  simp only [readPieces, htake, hall, List.map_append, List.length_append, Nat.add_lt_add_iff_left]

variable {front}

/-- A text that reading does not get through is read alike with more behind it. -/
theorem read_append_of_overlong (h : (read front).overlong = true) :
    read (front ++ 10 :: back) = read front := by
  obtain ⟨gap, _, hpieces⟩ := exists_pieces_append front back
  calc read (front ++ 10 :: back)
      = readPieces (pieces front ++ (gap ++ pieces back)) := by
        rw [← List.append_assoc, ← hpieces]
        rfl
    _ = read front := readPieces_append_of_overlong h _

/-- Behind a line feed reading goes on with the lines of the other text. -/
theorem exists_read_append (h : (read front).overlong = false) :
    ∃ gap, (gap = [] ∨ gap = [[]]) ∧
      read (front ++ 10 :: back) =
        ⟨(read front).lines ++ (gap ++ (read back).lines), (read back).overlong⟩ := by
  obtain ⟨gap, hgap, hpieces⟩ := exists_pieces_append front back
  refine ⟨gap, hgap, ?_⟩
  have hgapRead : readPieces gap = ⟨gap, false⟩ := by rcases hgap with rfl | rfl <;> decide
  calc read (front ++ 10 :: back)
      = readPieces (pieces front ++ (gap ++ pieces back)) := by
        rw [← List.append_assoc, ← hpieces]
        rfl
    _ = ⟨(read front).lines ++ (gap ++ (read back).lines), (read back).overlong⟩ := by
        rw [readPieces_append h, readPieces_append (congrArg Reading.overlong hgapRead), hgapRead]
        rfl

end Lines

/-! ## Statements and trees -/

namespace Source

section Appended

variable {front back : Text} {failure : Failure} {later : List Node}

/-- Where reading the text in front fails, reading both fails. -/
theorem statements_append_of_error (back : Text) (h : statements front = .error failure) :
    statements (front ++ 10 :: back) = .error failure := by
  cases hoverlong : (Lines.read front).overlong with
  | true => rw [statements_eq, Lines.read_append_of_overlong back hoverlong, ← statements_eq, h]
  | false =>
    obtain ⟨gap, _, hread⟩ := Lines.exists_read_append back hoverlong
    rw [statements_eq, hoverlong] at h
    rw [statements_eq, hread, readFrom_append]
    cases hfront : readFrom 1 (Lines.read front).lines with
    | error fault =>
      rw [hfront] at h
      exact h
    | ok found =>
      rw [hfront] at h
      cases h

/-- Behind the statements of the text in front come those of the other, but for their places. -/
theorem exists_statements_append {found later : List Statement} (h : statements front = .ok found)
    (hback : statements back = .ok later) :
    ∃ again, statements (front ++ 10 :: back) = .ok (found ++ again) ∧
      again.map Statement.unplaced = later.map Statement.unplaced := by
  obtain ⟨hfound, hoverlong⟩ := statements_eq_ok_iff.mp h
  obtain ⟨hlater, hshort⟩ := statements_eq_ok_iff.mp hback
  obtain ⟨gap, hgap, hread⟩ := Lines.exists_read_append back hoverlong
  -- An empty line holds no statement.
  have hlines : ∀ number, ∃ again, readFrom number (gap ++ (Lines.read back).lines) = .ok again ∧
      again.map Statement.unplaced = later.map Statement.unplaced := by
    intro number
    rcases hgap with rfl | rfl
    · exact readFrom_renumber number hlater
    · obtain ⟨again, hagain, hsame⟩ := readFrom_renumber (number + 1) hlater
      refine ⟨again, ?_, hsame⟩
      have hempty : readLine number [] = .ok none := rfl
      rw [List.singleton_append, readFrom, hempty, hagain]
      rfl
  obtain ⟨again, hagain, hsame⟩ := hlines (1 + (Lines.read front).lines.length)
  refine ⟨again, ?_, hsame⟩
  rw [statements_eq_ok_iff, hread, readFrom_append, hfound, hagain]
  exact ⟨rfl, hshort⟩

/-- Where parsing the text in front fails, parsing both fails, if the other can be parsed. -/
theorem parse_append_of_error (h : parse front = .error failure) (hback : parse back = .ok later) :
    parse (front ++ 10 :: back) = .error failure := by
  cases hfront : statements front with
  | error other =>
    have hboth := statements_append_of_error back hfront
    rw [parse, hfront] at h
    rw [parse, hboth]
    exact h
  | ok found =>
    obtain ⟨again, hboth, _⟩ := exists_statements_append hfront (of_parse hback).1
    rcases parse_cases hfront with ⟨_, trees, hok, _⟩ | ⟨before, culprit, behind, rfl, hrises, hjump, herror⟩
    · rw [h] at hok
      cases hok
    · rw [h] at herror
      rw [herror]
      rw [List.append_assoc, List.cons_append] at hboth
      rcases parse_cases hboth with
        ⟨hrisesBoth, _⟩ | ⟨before', culprit', behind', hsplit, hrises', hjump', hparse⟩
      · exact absurd hrisesBoth (not_risesFrom_append hjump _)
      · obtain ⟨rfl, rfl⟩ := jump_unique hsplit hrises hjump hrises' hjump'
        exact hparse

/-- Behind the trees of the text in front come those of the other. -/
theorem exists_parse_append {body : List Node} (h : parse front = .ok body)
    (hback : parse back = .ok later) :
    ∃ again, parse (front ++ 10 :: back) = .ok (body ++ again) := by
  obtain ⟨hfront, hrises, hlayered⟩ := of_parse h
  obtain ⟨hlater, hrisesLater, _⟩ := of_parse hback
  obtain ⟨again, hboth, hsame⟩ := exists_statements_append hfront hlater
  have hrisesAgain := hrisesLater.of_unplaced hsame
  have hdepths := List.forall_mem_append.mp (depth_nonneg_of_statements hboth)
  rcases nest_cases hdepths.2 with ⟨_, trees, _, hlayeredAgain, rfl⟩ | ⟨_, _, behind, rfl, _, hjump, _⟩
  · refine ⟨trees, parse_of_layered ?_ ?_ (hlayered.append hlayeredAgain)⟩
    · rw [hboth, Node.bodyStatements_append]
    · rw [Node.bodyStatements_append]
      refine risesFrom_append.mpr ⟨hrises, hrisesAgain.of_le ?_⟩
      rw [lastLevel]
      cases hlast : (Node.bodyStatements body).getLast? with
      | none => exact Int.le_refl _
      | some last =>
        have hdepth := hdepths.1 last (List.mem_of_getLast? hlast)
        rw [Option.elim_some]
        omega
  · exact absurd hrisesAgain (not_risesFrom_append hjump behind)

end Appended

end Source

/-! ## Expansions -/

namespace Expansion

/-- Expressions are visited in turn. -/
theorem visitAll_append (run : Node → State → Progress) (front back : List Node) (state : State) :
    visitAll run (front ++ back) state = (visitAll run front state).andThen (visitAll run back) := by
  induction front generalizing state with
  | nil => rfl
  | cons node rest ih =>
    rw [List.cons_append, visitAll, visitAll]
    cases run node state with
    | stopped last error => rfl
    | ready middle => exact ih middle

/-- A state with visits from before it. -/
def State.behind (older : List Visit) (state : State) : State :=
  { state with visits := state.visits ++ older }

/-- Progress with visits from before it. -/
def Progress.behind (older : List Visit) : Progress → Progress
  | .ready state => .ready (state.behind older)
  | .stopped state error => .stopped (state.behind older) error

section Behind

variable {setup : Setup} {levels : Nat} (older : List Visit)

/-- Earlier visits make no difference to a list of expressions, if they make none to each. -/
theorem visitAll_behind {run : Node → State → Progress}
    (hrun : ∀ node state, run node (state.behind older) = (run node state).behind older)
    (nodes : List Node) (state : State) :
    visitAll run nodes (state.behind older) = (visitAll run nodes state).behind older := by
  induction nodes generalizing state with
  | nil => rfl
  | cons node rest ih =>
    rw [visitAll, visitAll, hrun]
    cases run node state with
    | stopped last error => rfl
    | ready middle => exact ih middle

/-- A change that older visits do not matter to is made behind them, too. -/
theorem mapReady_behind (f : State → State) (hf : ∀ state, f (state.behind older) = (f state).behind older)
    (progress : Progress) : (progress.behind older).mapReady f = (progress.mapReady f).behind older := by
  cases progress with
  | ready state => exact congrArg Progress.ready (hf state)
  | stopped state error => rfl

/-- Earlier visits make no difference to a visit. -/
theorem visit_behind (trail : List Visit) (file : Text) (node : Node) (state : State) :
    visit setup levels trail file node (state.behind older) =
      (visit setup levels trail file node state).behind older := by
  induction levels generalizing trail file node state with
  | zero => rfl
  | succ levels ih =>
    have hstep : stepAt setup trail file node (state.behind older) = stepAt setup trail file node state :=
      rfl
    rw [visit_succ, visit_succ, hstep]
    cases stepAt setup trail file node state with
    | fail record fault => rfl
    | done record env => rfl
    | enter record scope body origin =>
      have hbody := visitAll_behind older (ih (record :: trail) origin) body
        ((state.record record).enter scope)
      exact (congrArg (Progress.mapReady State.leave) hbody).trans
        (mapReady_behind older State.leave (fun _ => rfl) _)
    | unit record name body =>
      have hbody := visitAll_behind older (ih (record :: trail) name) body
        ((state.record record).beginUnit name)
      exact (congrArg (Progress.mapReady State.endUnit) hbody).trans
        (mapReady_behind older State.endUnit (fun _ => rfl) _)

end Behind

/-- What comes behind a state: more visits, and perhaps more units. -/
structure Grows (before after : State) : Prop where
  visits : before.visits <:+ after.visits
  files : before.files <+: after.files

/-- An expansion only adds to its visits and its units. -/
theorem spans_grows (setup : Setup) : Spans setup Grows where
  refl _ := ⟨List.suffix_refl _, List.prefix_refl _⟩
  trans h h' := ⟨h.visits.trans h'.visits, h.files.trans h'.files⟩
  done _ := ⟨List.suffix_cons _ _, List.prefix_refl _⟩
  leave _ h := ⟨(List.suffix_cons _ _).trans h.visits, h.files⟩
  endUnit _ h := ⟨(List.suffix_cons _ _).trans h.visits, (List.prefix_append _ _).trans h.files⟩

/-- The state before the first expression of a program, without its root. -/
def State.blank (name : Text) : State :=
  { env := .root .initial, imports := [name], files := [name], visits := [] }

/-- An expansion has its root for the first visit, whatever follows. -/
theorem run_eq_behind (setup : Setup) (name : Text) (body : List Node) :
    run setup name body =
      (visitAll (visit setup setup.limit [] name) body (.blank name)).behind [Visit.root name body] :=
  visitAll_behind _ (visit_behind _ [] name) body (.blank name)

/-- Behind the expressions of a program others may follow. The expansion stops where it stopped without
them, or else goes on from where it ended. -/
theorem run_append_cases (setup : Setup) (name : Text) (body again : List Node) :
    (∃ error last last', run setup name body = .stopped last error ∧
      run setup name (body ++ again) = .stopped last' error) ∨
    ∃ middle, run setup name body = .ready (middle.behind [Visit.root name body]) ∧
      ∀ after, run setup name (body ++ again) = .ready after →
        ∃ last, after = last.behind [Visit.root name (body ++ again)] ∧ Grows middle last := by
  rw [run_eq_behind, run_eq_behind, visitAll_append]
  cases visitAll (visit setup setup.limit [] name) body (.blank name) with
  | stopped last error => exact .inl ⟨error, _, _, rfl, rfl⟩
  | ready middle =>
    refine .inr ⟨middle, rfl, fun after hafter => ?_⟩
    rw [Progress.andThen] at hafter
    cases hlater : visitAll (visit setup setup.limit [] name) again middle with
    | stopped last error =>
      rw [hlater] at hafter
      cases hafter
    | ready last =>
      rw [hlater] at hafter
      have hgrows := (spans_grows setup).visitAll (fun _ _ _ => (spans_grows setup).visit) hlater
      exact ⟨last, (Progress.ready.inj hafter).symm, hgrows⟩

/-- What the visits of a state emit, its root being silent. -/
theorem flatMap_behind {α : Type} (f : Visit → List α) {root : Visit} (hroot : f root = [])
    (state : State) :
    (state.behind [root]).visits.reverse.flatMap f = state.visits.reverse.flatMap f := by
  simp [State.behind, hroot]

/-- What visits emit comes in front of what later visits emit. -/
theorem Grows.flatMap_front {α : Type} (f : Visit → List α) {before after : State}
    (h : Grows before after) :
    before.visits.reverse.flatMap f <+: after.visits.reverse.flatMap f := by
  obtain ⟨newer, hnewer⟩ := h.visits
  rw [← hnewer, List.reverse_append, List.flatMap_append]
  exact List.prefix_append _ _

end Expansion

namespace Compiler

open Expansion

/-- If a unit with more expressions can be built then so can the unit, and the program, the locations
and the units of its build come first. -/
theorem exists_part_of_append {compiler : Compiler} {name : Text} {body again : List Node}
    {build : Build} (h : compiler.buildBody name (body ++ again) = some (.ok build)) :
    ∃ part, compiler.buildBody name body = some (.ok part) ∧ part.code <+: build.code ∧
      part.locations <+: build.locations ∧ part.files <+: build.files := by
  obtain ⟨progress, hexpand, hbuild⟩ := Option.map_eq_some_iff.mp h
  obtain ⟨setup, hworks, hrun, _⟩ := exists_setup_of_expand hexpand
  obtain ⟨after, rfl⟩ : ∃ after, progress = .ready after := by
    cases progress with
    | ready after => exact ⟨after, rfl⟩
    | stopped last error => cases hbuild
  cases hbuild
  rcases run_append_cases setup name body again with ⟨error, _, _, _, hstopped⟩ | ⟨middle, hready, hafter⟩
  · cases hrun.symm.trans hstopped
  · obtain ⟨last, rfl, hgrows⟩ := hafter after hrun
    have hwithin : (run setup name body).WithinLimit := by
      simp [hready]
    have hpart := buildBody_of_worksWith hworks fun _ => hwithin
    rw [Setup.buildBody, hready] at hpart
    refine ⟨_, hpart, ?_, ?_, hgrows.files⟩
    · rw [Build.code, Build.code, flatMap_behind Visit.code rfl, flatMap_behind Visit.code rfl]
      exact hgrows.flatMap_front Visit.code
    · rw [Build.locations, Build.locations, flatMap_behind Visit.locations rfl,
        flatMap_behind Visit.locations rfl]
      exact hgrows.flatMap_front Visit.locations

/-- If a unit cannot be built then it cannot with more expressions, for the same error. -/
theorem buildBody_append_of_error {compiler : Compiler} {name : Text} {body : List Node} {error : Error}
    (again : List Node) (h : compiler.buildBody name body = some (.error error)) :
    compiler.buildBody name (body ++ again) = some (.error error) := by
  obtain ⟨progress, hexpand, hbuild⟩ := Option.map_eq_some_iff.mp h
  obtain ⟨setup, hworks, hrun, huncut⟩ := exists_setup_of_expand hexpand
  obtain ⟨⟨last, rfl⟩, hkind⟩ := Progress.eq_stopped_of_build hbuild
  rcases run_append_cases setup name body again with
    ⟨reason, before, last', hstopped, hstopped'⟩ | ⟨middle, hready, _⟩
  · obtain ⟨rfl, rfl⟩ := Progress.stopped.inj (hrun.symm.trans hstopped)
    have hwithin (hnone : compiler.limit? = none) : (run setup name (body ++ again)).WithinLimit := by
      -- Whether an expansion was cut off can be told from its error.
      have huncut := isCutOff_eq_false_iff.mp (huncut hnone)
      rw [Progress.WithinLimit, hkind] at huncut
      have hkind' := (Progress.eq_stopped_of_build (show (Progress.stopped last' error).build = _ from rfl)).2
      rwa [hstopped', Progress.WithinLimit, hkind']
    rw [buildBody_of_worksWith hworks hwithin, Setup.buildBody, hstopped']
    rfl
  · cases hrun.symm.trans hready

/-- A text behind another that can be parsed on its own, and so begins at the top level, only adds to
the build. If both together can be built then the text in front can, and the program, the locations
and the units of its build come first. If the text in front cannot be built then both together cannot,
for the same error: its kind, the word it blames and the visits around it. -/
theorem appended_source_appends_code (compiler : Compiler) (name front back : Text) {trees : List Node}
    (hback : Source.parse back = .ok trees) :
    (∀ build, compiler.build name (front ++ Text.ofString "\n" ++ back) = some (.ok build) →
      ∃ part, compiler.build name front = some (.ok part) ∧ part.code <+: build.code ∧
        part.locations <+: build.locations ∧ part.files <+: build.files) ∧
      ∀ error, compiler.build name front = some (.error error) →
        compiler.build name (front ++ Text.ofString "\n" ++ back) = some (.error error) := by
  have htext : front ++ Text.ofString "\n" ++ back = front ++ 10 :: back := List.append_assoc _ _ _
  rw [htext]
  cases hfront : Source.parse front with
  | error failure =>
    have hboth := Source.parse_append_of_error hfront hback
    simp only [build, hfront, hboth]
    exact ⟨fun _ h => (by cases h), fun _ h => h⟩
  | ok body =>
    obtain ⟨again, hboth⟩ := Source.exists_parse_append hfront hback
    simp only [build, hfront, hboth]
    exact ⟨fun build => exists_part_of_append, fun error => buildBody_append_of_error again⟩

/-- A library with two units. -/
def twoUnits : Library := ⟨[("a", "reg x\n_add x 1\n"), ("b", "__plus 1\n")]⟩

/-- A source that brings in a unit and defines a function. -/
def opening : Text := "import 'a'\nmacro global twice\n    __plus 1\n    __plus 1\ntwice"

/-- A source that asks for a unit that does not exist. -/
def misled : Text := "import 'a'\n__plus 1\nimport 'c'\n"

/-- A source that brings in the other unit. -/
def closing : Text := "__plus 2\nimport 'b'\n"

/-- Behind one source the last one adds an instruction, a unit and what the unit emits; behind the
other it makes no difference. -/
theorem appended_source_appends_code_closing :
    ∃ trees, Source.parse closing = .ok trees ∧
      (∃ part build,
        Compiler.build ⟨twoUnits.loader, 8⟩ "main" opening = some (.ok part) ∧
          Compiler.build ⟨twoUnits.loader, 8⟩ "main" (opening ++ Text.ofString "\n" ++ closing) =
            some (.ok build) ∧
          build.files = [Text.ofString "main", Text.ofString "a", Text.ofString "b"] ∧
            part.code <+: build.code ∧ part.locations <+: build.locations ∧
              part.files <+: build.files) ∧
      ∃ error, Compiler.build ⟨twoUnits.loader, 8⟩ "main" misled = some (.error error) ∧
        Compiler.build ⟨twoUnits.loader, 8⟩ "main" (misled ++ Text.ofString "\n" ++ closing) =
          some (.error error) := by
  have hparse : (Source.parse closing).isOk = true := by decide +kernel
  have hfiles : (Expansion.Setup.build ⟨twoUnits.loader, 8⟩ "main"
      (opening ++ Text.ofString "\n" ++ closing)).toOption.map Build.files =
      some [Text.ofString "main", Text.ofString "a", Text.ofString "b"] := by decide +kernel
  have hmisled : (Expansion.Setup.build ⟨twoUnits.loader, 8⟩ "main" misled).isOk = false := by decide +kernel
  obtain ⟨build, hbuild, hfiles⟩ := Option.map_eq_some_iff.mp hfiles
  have height := build_of_limit (show limit? ⟨twoUnits.loader, 8⟩ = some 8 from rfl) "main"
  have hbuild := (height _).trans (congrArg some (eq_ok_of_toOption hbuild))
  cases htrees : Source.parse closing with
  | error failure =>
    rw [htrees] at hparse
    cases hparse
  | ok trees =>
    cases herror : Expansion.Setup.build ⟨twoUnits.loader, 8⟩ "main" misled with
    | ok other =>
      rw [herror] at hmisled
      cases hmisled
    | error error =>
      have herror := (height misled).trans (congrArg some herror)
      have happended := appended_source_appends_code ⟨twoUnits.loader, 8⟩ "main" opening closing htrees
      obtain ⟨part, hpart, hcode, hlocations, hfront⟩ := happended.1 build hbuild
      exact ⟨trees, rfl, ⟨part, build, hpart, hbuild, hfiles, hcode, hlocations, hfront⟩, error, herror,
        (appended_source_appends_code ⟨twoUnits.loader, 8⟩ "main" misled closing htrees).2 error herror⟩

end Compiler

end Tapestry

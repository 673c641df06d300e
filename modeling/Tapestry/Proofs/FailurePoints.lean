import Tapestry.File.Library
import Tapestry.Proofs.BuildLimits
import Tapestry.Proofs.VisitTree

/-!
# Where an expansion fails

An expansion that fails has failed at the visit it began last. That visit notes its place at the
error: the chain of visits around it in the tree of visits, which the trace lists. The visits of that
chain were all interrupted by this one error. On its way out, statements that asked for units note
their places too, but the first note stays. Every other visit came to its end, with visits below it
for all the expressions it led to.

Whether a visit was interrupted can be told from its place in the tree: it was if all the visits
after it are below it.
-/

namespace Tapestry

namespace Visit

/-- Going back over deeper visits to a visit, it and the visits around it are found. -/
theorem suffix_enclosing {visit : Visit} {depth : Nat} (hdepth : visit.depth < depth)
    {between : List Visit} (hbetween : ∀ other ∈ between, visit.depth < other.depth)
    (earlier : List Visit) :
    visit :: enclosing visit.depth earlier <:+ enclosing depth (between ++ visit :: earlier) := by
  induction between generalizing depth with
  | nil =>
    have hfound : enclosing depth (visit :: earlier) = visit :: enclosing visit.depth earlier := by
      rw [enclosing, if_pos hdepth]
    exact hfound ▸ List.suffix_refl _
  | cons other rest ih =>
    have hrest := fun more hmore => hbetween more (List.mem_cons_of_mem other hmore)
    rw [List.cons_append, enclosing]
    split
    · exact (ih (hbetween other List.mem_cons_self) hrest).trans (List.suffix_cons other _)
    · exact ih hdepth hrest

/-- A visit that all later ones are below is the last visit or around it, and so are the visits
around it. -/
theorem suffix_around {visit last : Visit} {earlier later front : List Visit}
    (hvisits : front ++ [last] = earlier ++ visit :: later)
    (hlater : ∀ other ∈ later, visit.depth < other.depth) :
    visit :: visit.around earlier <:+ last :: last.around front := by
  rcases List.eq_nil_or_concat later with rfl | ⟨between, deepest, rfl⟩
  · obtain ⟨rfl, hlast⟩ := List.append_inj' hvisits rfl
    obtain ⟨rfl, -⟩ := List.cons.inj hlast
    exact List.suffix_refl _
  · rw [List.concat_eq_append] at hlater hvisits
    rw [← List.cons_append, ← List.append_assoc] at hvisits
    obtain ⟨rfl, hlast⟩ := List.append_inj' hvisits rfl
    obtain ⟨rfl, -⟩ := List.cons.inj hlast
    have hdepth : visit.depth < last.depth := hlater last (by simp)
    have hbetween : ∀ other ∈ between.reverse, visit.depth < other.depth :=
      fun other hother => hlater other (by simpa using .inl (List.mem_reverse.mp hother))
    have hchain := suffix_enclosing hdepth hbetween earlier.reverse
    rw [around, around, List.reverse_append, List.reverse_cons, List.append_assoc, List.singleton_append]
    exact hchain.trans (List.suffix_cons last _)

end Visit

namespace Expansion

variable {setup : Setup} {levels : Nat} {trail : List Visit} {file name : Text} {node : Node}
  {nodes rest body : List Node} {state after last : State} {error : Error} {whole : Progress}
  {frame : Frame} {record : Visit}

/-! ## Parts of an expansion -/

/-- A part of an expansion: where it stops, so does the whole, and where it comes to its end, the
whole goes on from there. To stop later on, it has to begin another visit. -/
structure Progress.Continues (whole part : Progress) : Prop where
  stopped : ∀ {last error}, part = .stopped last error → whole = .stopped last error
  ready : ∀ {after}, part = .ready after →
    ∃ added, whole.visits = after.visits.reverse ++ added ∧
      ∀ {last error}, whole = .stopped last error → added ≠ []

/-- Going through expressions as a part of an expansion, the whole makes the visits made so far and
others; to be stopped it has to make one. -/
theorem Progress.Continues.visits
    (h : whole.Continues (visitAll (visit setup levels trail file) nodes state)) :
    ∃ added, whole.visits = state.visits.reverse ++ added ∧
      ∀ {last error}, whole = .stopped last error → added ≠ [] := by
  obtain ⟨_, added, _, _, hadded, _, hstops⟩ :=
    visitAll_siblings (visit_siblings setup levels trail file) nodes state
  cases hpart : visitAll (visit setup levels trail file) nodes state with
  | stopped middle reason =>
    rw [hpart] at hadded
    rw [h.stopped hpart]
    exact ⟨added, hadded, fun _ => hstops _ _ hpart⟩
  | ready middle =>
    rw [hpart] at hadded
    obtain ⟨more, hmore, hstops⟩ := h.ready hpart
    refine ⟨added ++ more, ?_, fun hstopped hnone => ?_⟩
    · rw [hmore, ← List.append_assoc]
      exact congrArg (· ++ more) hadded
    · exact hstops hstopped (List.append_eq_nil_iff.mp hnone).2

/-- A body is a part of what its expression is a part of. -/
theorem Progress.Continues.of_descends {origin : Text} {entered : State} {back : State → State}
    (hdescends : Descends setup trail file node state record origin body entered back)
    (h : whole.Continues (visitAll (visit setup (levels + 1) trail file) (node :: rest) state)) :
    whole.Continues (visitAll (visit setup levels (record :: trail) origin) body entered) := by
  have hback : ∀ state, (back state).visits = state.visits := by cases hdescends <;> exact fun _ => rfl
  have hlist : visitAll (visit setup (levels + 1) trail file) (node :: rest) state =
      ((visitAll (visit setup levels (record :: trail) origin) body entered).mapReady back).andThen
        (visitAll (visit setup (levels + 1) trail file) rest) := by
    rw [visitAll, hdescends.visit_eq]
  rw [hlist] at h
  constructor
  · intro last error hstopped
    rw [hstopped] at h
    exact h.stopped rfl
  · intro after hready
    rw [hready] at h
    obtain ⟨added, hadded, hstops⟩ := Progress.Continues.visits h
    rw [hback] at hadded
    exact ⟨added, hadded, hstops⟩

/-- What a point leads to is a part of the expansion that reaches it. -/
theorem continues_of_reached (h : Reached setup name body frame) :
    (run setup name body).Continues
      (visitAll (visit setup frame.levels frame.trail frame.file) frame.nodes frame.state) := by
  induction h with
  | refl =>
    refine ⟨id, fun {after} hready => ?_⟩
    have hrun : run setup name body = .ready after := hready
    rw [hrun]
    exact ⟨[], (List.append_nil _).symm, fun hstopped => by cases hstopped⟩
  | tail _ hleads ih =>
    cases hleads with
    | next hvisit =>
      rw [visitAll, hvisit] at ih
      exact ih
    | enter hstep => exact ih.of_descends (.enter hstep)
    | unit hstep => exact ih.of_descends (.unit hstep)

/-! ## Interrupted and finished visits -/

/-- The expressions a step leads to, each with the unit it was written in. -/
def Step.subjects : Step → List (Node × Text)
  | .fail _ _ | .done _ _ => []
  | .enter _ _ body origin => body.map fun child => (child, origin)
  | .unit _ name body => body.map fun child => (child, name)

/-- The expressions that the first expression at a point leads to. -/
def Frame.subjects (setup : Setup) (frame : Frame) : List (Node × Text) :=
  match frame.nodes with
  | [] => []
  | node :: _ => (stepAt setup frame.trail frame.file node frame.state).subjects

/-- A visit, made at a point with others before it, came to its end: what was visited for its
expression is it and the visits below it, and directly below it are visits of all the expressions
it led to, in order. -/
structure Frame.Finishes (setup : Setup) (frame : Frame) (visit : Visit) (later : List Visit) : Prop where
  ready : ∃ after, frame.first setup = .ready after ∧
    after.visits.reverse = frame.state.visits.reverse ++ visit :: visit.below later
  children : (visit.children later).map Visit.subject = frame.subjects setup

namespace Frame.Makes

variable {frame : Frame} {earlier later : List Visit} {visit : Visit}

/-- A visit that some later one is not below was not interrupted. -/
theorem exists_ready (h : frame.Makes setup whole earlier visit later)
    (hwhole : whole.visits = earlier ++ visit :: later)
    (hlater : ¬ ∀ other ∈ later, visit.depth < other.depth) :
    ∃ after, frame.first setup = .ready after := by
  cases hfirst : frame.first setup with
  | ready after => exact ⟨after, rfl⟩
  | stopped last error =>
    refine absurd (fun other hother => ?_) hlater
    have hvisits := h.first_eq
    rw [hfirst, ← h.stopped hfirst, hwhole] at hvisits
    have hbelow : later = visit.below later := (List.cons.inj (List.append_cancel_left hvisits)).2
    rw [hbelow] at hother
    simpa using List.all_eq_true.mp List.all_takeWhile other hother

/-- A visit that all later ones are below was interrupted, if the expansion stopped. -/
theorem first_eq_stopped (hreached : Reached setup name body frame)
    (h : frame.Makes setup (run setup name body) earlier visit later)
    (hwhole : (run setup name body).visits = earlier ++ visit :: later)
    (hstopped : run setup name body = .stopped last error)
    (hlater : ∀ other ∈ later, visit.depth < other.depth) :
    frame.first setup = .stopped last error := by
  obtain ⟨levels, trail, file, nodes, state⟩ := frame
  cases nodes with
  | nil => cases h.records
  | cons node rest =>
    cases hfirst : Frame.first setup ⟨levels, trail, file, node :: rest, state⟩ with
    | stopped other reason => rw [← h.stopped hfirst, hstopped]
    | ready after =>
      -- The expansion goes on behind the expression, and would have to make another visit.
      have hnext : Reached setup name body ⟨levels, trail, file, rest, after⟩ :=
        hreached.tail (.next hfirst)
      obtain ⟨added, hadded, hstops⟩ := (continues_of_reached hnext).visits
      have hvisits : after.visits.reverse = earlier ++ visit :: later := by
        have hvisits := h.first_eq
        rwa [hfirst, Visit.below_eq_self hlater] at hvisits
      rw [hwhole, hvisits] at hadded
      exact absurd (List.self_eq_append_right.mp hadded) (hstops hstopped)

/-- Directly below a visit whose body was gone through are visits of all the expressions in it. -/
theorem children_eq_of_descends {origin : Text} {entered : State} {back : State → State}
    (h : Frame.Makes setup whole ⟨levels + 1, trail, file, node :: rest, state⟩ earlier visit later)
    (hdescends : Descends setup trail file node state visit origin body entered back)
    (hready : Expansion.visit setup (levels + 1) trail file node state = .ready after) :
    (visit.children later).map Visit.subject = body.map fun child => (child, origin) := by
  obtain ⟨done, added, _, hsiblings, hadded, hall, _⟩ :=
    visitAll_siblings (visit_siblings setup levels (visit :: trail) origin) body entered
  have hbelow : visit.below later = added :=
    List.append_cancel_left ((h.first_eq_of_descends hdescends).symm.trans hadded)
  rw [hdescends.visit_eq] at hready
  obtain ⟨inner, hinner, -⟩ := exists_of_mapReady hready
  obtain rfl := hall inner hinner
  rw [Visit.children, hbelow, h.records.place.2.1]
  exact hsiblings.subjects

/-- A visit that was not interrupted came to its end. -/
theorem finishes (h : frame.Makes setup whole earlier visit later)
    (hready : frame.first setup = .ready after) : frame.Finishes setup visit later := by
  have hvisits := h.first_eq
  rw [hready, ← h.earlier_eq] at hvisits
  refine ⟨⟨after, hready, hvisits⟩, ?_⟩
  obtain ⟨levels, trail, file, nodes, state⟩ := frame
  cases nodes with
  | nil => cases h.records
  | cons node rest =>
    cases levels with
    | zero => cases hready
    | succ levels =>
      change (visit.children later).map Visit.subject = (stepAt setup trail file node state).subjects
      have hrecord := h.record_eq
      rw [Frame.first_cons] at hready
      cases hstep : stepAt setup trail file node state with
      | fail record fault =>
        rw [visit_succ, hstep] at hready
        cases hready
      | done record env =>
        have hown : (Frame.first setup ⟨levels + 1, trail, file, node :: rest, state⟩).visits =
            earlier ++ [record] := by
          rw [← h.earlier_eq, Frame.first_cons, visit_succ, hstep]
          exact List.reverse_cons
        rw [Visit.children, h.below_eq_nil hown]
        rfl
      | enter record scope inner origin =>
        rw [hstep] at hrecord
        subst hrecord
        exact h.children_eq_of_descends (.enter hstep) hready
      | unit record name inner =>
        rw [hstep] at hrecord
        subst hrecord
        exact h.children_eq_of_descends (.unit hstep) hready

end Frame.Makes

/-- What a point records is one level below the visits around it. -/
theorem Frame.Records.depth_eq (h : frame.Records setup record) :
    record.depth = frame.trail.length + 1 := by
  obtain ⟨levels, trail, file, nodes, state⟩ := frame
  cases nodes with
  | nil => cases h
  | cons node rest => exact h.place.2.1

/-- An expression fails because of a fault of the language. -/
theorem Frame.Fails.exists_fault {failure : Failure} (h : frame.Fails setup failure) :
    ∃ fault, failure = .fault fault := by
  cases h with
  | tooDeep => exact ⟨_, rfl⟩
  | step => exact ⟨_, rfl⟩

/-- The point at which an expansion stops makes the last visit, which notes its place at the error: the
chain of visits around it. -/
theorem exists_last_of_stopped (h : run setup name body = .stopped last error) :
    ∃ frame visit fault, Reached setup name body frame ∧ frame.Records setup visit ∧
      last.visits.reverse = frame.state.visits.reverse ++ [visit] ∧
      error.context = some (visit :: frame.trail) ∧
      (visit :: frame.trail) ++ [Visit.root name body] = visit :: visit.around frame.state.visits.reverse ∧
      error.failure = .fault fault ∧ frame.Fails setup error.failure := by
  obtain ⟨frame, visit, hreached, hrecords, rfl, hcontext, hfails⟩ := visitAll_stops visit_stops h
  obtain ⟨fault, hfault⟩ := hfails.exists_fault
  refine ⟨frame, visit, fault, hreached, hrecords, List.reverse_cons, hcontext, ?_, hfault, hfails⟩
  rw [Visit.around, List.reverse_reverse, hrecords.depth_eq, enclosing_of_reached hreached]
  rfl

end Expansion

open Expansion

/-- A program that cannot be expanded is refused with a fault, at the visit begun last. The error has the
place noted there, the chain of visits from that one outward: it was raised without a place, and the
last visit was the first to note one. The trace lists the chain without the root, each visit with its
arguments. The fault is what is wrong with the expression of the last visit. Of the other visits,
those that all later ones are below are in that chain; they were interrupted by this same error, with
the place it has already, and to note another changes nothing. Every other visit came to its end. -/
theorem Compiler.errors_name_last_visit (compiler : Compiler) (name : Text) (body : List Node)
    (error : Error) (h : compiler.buildBody name body = some (.error error)) :
    ∃ setup last front visit fault chain,
      compiler.WorksWith setup ∧
      run setup name body = .stopped last error ∧
      error.failure = .fault fault ∧
      last.visits.reverse = front ++ [visit] ∧
      error.context = some chain ∧
      chain ++ [Visit.root name body] = visit :: visit.around front ∧
      error.trace = (visit :: visit.around front).dropLast.flatMap (fun around =>
        (around.location.render ++ Text.ofString "  " ++ around.label) ::
          around.bindings.map fun argument => Text.ofString "    " ++ argument.render) ∧
      (∃ frame, Reached setup name body frame ∧ frame.Records setup visit ∧
        frame.state.visits.reverse = front ∧ frame.Fails setup error.failure ∧
        error = (Error.ofFailure error.failure).noteAt (visit :: frame.trail)) ∧
      ∀ earlier other later, last.visits.reverse = earlier ++ other :: later → earlier ≠ [] →
        (other.around earlier).length = other.depth ∧
        ∃ frame, Reached setup name body frame ∧ frame.Records setup other ∧
          frame.state.visits.reverse = earlier ∧
          ((∀ next ∈ later, other.depth < next.depth) →
            other :: other.around earlier <:+ visit :: visit.around front ∧
              frame.first setup = .stopped last error ∧
              error.noteAt (other :: frame.trail) = error) ∧
          ((¬ ∀ next ∈ later, other.depth < next.depth) → frame.Finishes setup other later) := by
  obtain ⟨setup, hworks, hresult⟩ := exists_setup_of_buildBody h
  obtain ⟨last, hrun⟩ : ∃ last, run setup name body = .stopped last error := by
    rw [Setup.buildBody] at hresult
    cases hrun : run setup name body with
    | ready last =>
      rw [hrun] at hresult
      cases hresult
    | stopped last reason =>
      rw [hrun] at hresult
      rw [Except.error.inj hresult]
      exact ⟨last, rfl⟩
  obtain ⟨point, visit, fault, hpoint, hrecords, hvisits, hcontext, hchain, hfault, hfails⟩ :=
    exists_last_of_stopped hrun
  refine ⟨setup, last, _, visit, fault, _, hworks, hrun, hfault, hvisits, hcontext, hchain, ?_,
    ⟨point, hpoint, hrecords, rfl, hfails, ?_⟩, ?_⟩
  · rw [← hchain, List.dropLast_concat, Error.trace, error.trail_of_context hcontext]
    rfl
  · obtain ⟨failure, context⟩ := error
    obtain rfl : context = some (visit :: point.trail) := hcontext
    rfl
  intro earlier other later hother hearlier
  have hwhole : (run setup name body).visits = earlier ++ other :: later := by
    rw [hrun]
    exact hother
  obtain ⟨frame, hreached, hmakes⟩ := exists_reached_of_visits hwhole hearlier
  refine ⟨?_, frame, hreached, hmakes.records, hmakes.earlier_eq, fun hlater => ⟨?_, ?_, ?_⟩,
    fun hlater => ?_⟩
  · rw [hmakes.around_eq hreached, hmakes.records.depth_eq, List.length_append, List.length_singleton]
  · exact Visit.suffix_around (hvisits.symm.trans hother) hlater
  · exact hmakes.first_eq_stopped hreached hwhole hrun hlater
  · exact noteAt_eq_self (by rw [hcontext, Option.isSome_some]) _
  · obtain ⟨after, hready⟩ := hmakes.exists_ready hwhole hlater
    exact hmakes.finishes hready

/-- A unit with a block template that expands to just the block, and with a template that calls an
unknown function. It passes a call of the one to the other. -/
def stumbles : Library :=
  ⟨[("frame", Text.ofString "macroblock global wrap\n    code\n" ++
    "macro global stumble\n    __plus 1\n    nope\nwrap\n    stumble\n")]⟩

/-- A source that asks for the unit. -/
def stumbling : Text := "import 'frame'\n__plus 1\n"

/-- The expansion stops at the ninth visit, five levels deep: in the unit, the block and the template.
The second visit, which asks for the unit, was interrupted by the error of the ninth, and the place
that it notes is not the first. The third, the first definition in the unit, came to its end. -/
theorem Compiler.errors_name_last_visit_stumbling :
    ∃ body error setup last front visit chain, Source.parse stumbling = .ok body ∧
      Compiler.buildBody ⟨stumbles.loader, 8⟩ "main" body = some (.error error) ∧
      run setup "main" body = .stopped last error ∧
      last.visits.reverse = front ++ [visit] ∧ front.length = 8 ∧ visit.depth = 5 ∧
      error.context = some chain ∧
      chain ++ [Visit.root "main" body] = visit :: visit.around front ∧
      (∃ earlier other later, ∃ frame : Frame, last.visits.reverse = earlier ++ other :: later ∧
        earlier.length = 1 ∧ other.asksForUnit = true ∧ frame.first setup = .stopped last error ∧
          error.noteAt (other :: frame.trail) = error) ∧
      ∃ earlier other later, ∃ frame : Frame, last.visits.reverse = earlier ++ other :: later ∧
        earlier.length = 2 ∧ other.depth = 2 ∧ frame.Finishes setup other later := by
  have hfacts : (Source.parse stumbling).toOption.map (fun body =>
      let progress := run ⟨stumbles.loader, 8⟩ "main" body
      ((progress.faultKind?, progress.visits.length, progress.visits[8]?.map Visit.depth),
        progress.visits[1]?.map (fun second => (second.asksForUnit,
          (progress.visits.drop 2).all fun next => second.depth < next.depth)),
        progress.visits[2]?.map fun third => (third.depth,
          (progress.visits.drop 3).all fun next => third.depth < next.depth))) =
      some ((some .functionNotFound, 9, some 5), some (true, true), some (2, false)) := by
    decide +kernel
  obtain ⟨body, hparse, hfacts⟩ := Option.map_eq_some_iff.mp hfacts
  simp only [Prod.mk.injEq] at hfacts
  obtain ⟨⟨hkind, hlength, hdepth⟩, hsecond, hthird⟩ := hfacts
  cases hrun : run ⟨stumbles.loader, 8⟩ "main" body with
  | ready last =>
    rw [hrun] at hkind
    cases hkind
  | stopped last error =>
    rw [hrun] at hlength hdepth hsecond hthird
    change last.visits.reverse.length = 9 at hlength
    have hbuild : Compiler.buildBody ⟨stumbles.loader, 8⟩ "main" body = some (.error error) := by
      rw [Compiler.buildBody_of_limit rfl, Setup.buildBody]
      exact congrArg (some ·.build) hrun
    obtain ⟨setup, last', front, visit, fault, chain, hworks, hrun', -, hlast, hcontext, hchain, -, -,
      hothers⟩ := Compiler.errors_name_last_visit _ _ _ _ hbuild
    obtain rfl := hworks.eq_of_limit rfl
    obtain ⟨rfl, -⟩ := Progress.stopped.inj (hrun.symm.trans hrun')
    have hfront : front.length = 8 := by
      rw [hlast, List.length_append, List.length_singleton] at hlength
      omega
    have hvisit : visit.depth = 5 := by
      change last.visits.reverse[8]?.map Visit.depth = some 5 at hdepth
      rw [hlast, List.getElem?_append_right (Nat.le_of_eq hfront), hfront] at hdepth
      exact Option.some.inj hdepth
    obtain ⟨second, hsecond, hdeeper⟩ := Option.map_eq_some_iff.mp hsecond
    obtain ⟨third, hthird, hshallow⟩ := Option.map_eq_some_iff.mp hthird
    obtain ⟨hasks, hdeeper⟩ := Prod.mk.inj hdeeper
    obtain ⟨htwo, hshallow⟩ := Prod.mk.inj hshallow
    have htaken (place : Nat) (hle : place ≤ 9) : (last.visits.reverse.take place).length = place := by
      rw [List.length_take, hlength]
      omega
    have hsome (place : Nat) (hle : place + 1 ≤ 9) : last.visits.reverse.take (place + 1) ≠ [] :=
      List.ne_nil_of_length_eq_add_one (htaken (place + 1) hle)
    -- All visits behind the second are deeper; behind the third stand some that are not.
    obtain ⟨-, frame, -, -, -, hinterrupted, -⟩ :=
      hothers _ second _ (Visit.eq_append_of_getElem? hsecond) (hsome 0 (by decide))
    obtain ⟨-, frame', -, -, -, -, hfinishes⟩ :=
      hothers _ third _ (Visit.eq_append_of_getElem? hthird) (hsome 1 (by decide))
    obtain ⟨-, hstopped, hnoted⟩ := hinterrupted fun next hnext =>
      of_decide_eq_true (List.all_eq_true.mp hdeeper next hnext)
    have hended := hfinishes fun hbelow => by
      have hall := List.all_eq_true.mpr fun next hnext => decide_eq_true (hbelow next hnext)
      cases hall.symm.trans hshallow
    exact ⟨body, error, _, last, front, visit, chain, eq_ok_of_toOption hparse, hbuild, hrun, hlast,
      hfront, hvisit, hcontext, hchain,
      ⟨_, second, _, frame, Visit.eq_append_of_getElem? hsecond, htaken 1 (by decide), hasks, hstopped,
        hnoted⟩,
      _, third, _, frame', Visit.eq_append_of_getElem? hthird, htaken 2 (by decide), htwo, hended⟩

end Tapestry

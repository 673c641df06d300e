import Tapestry.Proofs.ExpansionFrames

/-!
# The tree of visits

The visits of an expansion, in the order they began and with their depths, are a tree in
pre-order. The visits around one are found going back from it, each less deep than the one
before; those below it are the deeper ones that follow it.

Every visit but the root was made at one point of the expansion. The visits before it are those
recorded when the point was reached, the visits around it are those around the point, and the
visits below it are what the expression at the point led to.
-/

namespace Tapestry

namespace Visit

variable {visit : Visit}

/-- The visits around something at a depth, innermost first, among the visits before it, latest
first. -/
def enclosing (depth : Nat) : List Visit → List Visit
  | [] => []
  | visit :: earlier =>
    if visit.depth < depth then visit :: enclosing visit.depth earlier else enclosing depth earlier

/-- The visits around a visit, innermost first, given the visits before it in pre-order. -/
def around (visit : Visit) (earlier : List Visit) : List Visit :=
  enclosing visit.depth earlier.reverse

/-- The visits below a visit, given the visits after it in pre-order. -/
def below (visit : Visit) (later : List Visit) : List Visit :=
  later.takeWhile fun other => decide (visit.depth < other.depth)

/-- The visits directly below a visit, given the visits after it in pre-order. -/
def children (visit : Visit) (later : List Visit) : List Visit :=
  (visit.below later).filter fun other => decide (other.depth = visit.depth + 1)

/-- The expression a visit is about, and the unit it was written in. -/
def subject (visit : Visit) : Node × Text := (visit.node, visit.file)

/-- Without the innermost visit, the visits around a point are those around that visit. -/
theorem enclosing_of_succ {depth : Nat} {outer earlier : List Visit} (hdepth : visit.depth = depth)
    (h : enclosing (depth + 1) earlier = visit :: outer) :
    enclosing depth earlier = outer := by
  induction earlier with
  | nil => cases h
  | cons other rest ih =>
    unfold enclosing at h ⊢
    by_cases hother : other.depth < depth + 1
    · rw [if_pos hother] at h
      cases h
      rw [if_neg (by omega), hdepth]
    · rw [if_neg hother] at h
      rw [if_neg (by omega)]
      exact ih h

/-- Visits that follow one no deeper are not below it, nor are those behind them. -/
theorem below_append (visit : Visit) (later more : List Visit)
    (hmore : ∀ other ∈ more.head?, other.depth ≤ visit.depth) :
    visit.below (later ++ more) = visit.below later := by
  have hstop : more.takeWhile (fun other => decide (visit.depth < other.depth)) = [] := by
    cases more with
    | nil => rfl
    | cons other rest =>
      have hother : ¬ visit.depth < other.depth := Nat.not_lt.mpr (hmore other rfl)
      simp [hother]
  unfold below
  rw [List.takeWhile_append, hstop]
  split
  case isTrue hall =>
    have hlater := (List.takeWhile_prefix fun other : Visit =>
      decide (visit.depth < other.depth)).eq_of_length hall
    rw [List.append_nil, hlater]
  case isFalse => rfl

/-- Deeper visits that follow one are below it. -/
theorem below_eq_self {later : List Visit} (h : ∀ other ∈ later, visit.depth < other.depth) :
    visit.below later = later := by
  have hall : ∀ other ∈ later, decide (visit.depth < other.depth) = true := by simpa using h
  rw [below, ← List.append_nil later, List.takeWhile_append_of_pos hall, List.takeWhile_nil]

/-- Visits before one, that one, and those after it. -/
theorem eq_append_of_getElem? {visits : List Visit} {i : Nat} (h : visits[i]? = some visit) :
    visits = visits.take i ++ visit :: visits.drop (i + 1) := by
  obtain ⟨hi, rfl⟩ := List.getElem?_eq_some_iff.mp h
  rw [List.getElem_cons_drop, List.take_append_drop]

end Visit

namespace Expansion

variable {later : List Visit}

/-- Every visit of an expansion so far, in pre-order. -/
def Progress.visits (progress : Progress) : List Visit := progress.state.visits.reverse

/-- The kind of the fault that stopped an expansion. -/
def Progress.faultKind? : Progress → Option FaultKind
  | .stopped _ ⟨.fault fault, _⟩ => some fault.kind
  | _ => none

/-- An expansion stops at a visit, given the visits after it in pre-order, with a fault of a
kind. -/
def Progress.StopsAt (progress : Progress) (visit : Visit) (later : List Visit) (kind : FaultKind) :
    Prop :=
  later = [] ∧ ∃ last fault outer,
    progress = .stopped last ⟨.fault fault, some (visit :: outer)⟩ ∧ fault.kind = kind

/-- An expansion that stops at a visit stops for a fault of that kind. -/
theorem Progress.StopsAt.faultKind?_eq {progress : Progress} {visit : Visit} {kind : FaultKind}
    (h : progress.StopsAt visit later kind) : progress.faultKind? = some kind := by
  obtain ⟨_, last, fault, outer, rfl, rfl⟩ := h
  rfl

/-- The progress made by visiting the first expression at a point. -/
def Frame.first (setup : Setup) (frame : Frame) : Progress :=
  match frame.nodes with
  | [] => .ready frame.state
  | node :: _ => visit setup frame.levels frame.trail frame.file node frame.state

variable {setup : Setup} {levels : Nat} {trail : List Visit} {file name : Text} {node : Node}
  {nodes rest body : List Node} {state : State}

/-- The first expression of a list is visited first. -/
@[simp]
theorem Frame.first_cons (setup : Setup) (levels : Nat) (trail : List Visit) (file : Text)
    (node : Node) (rest : List Node) (state : State) :
    Frame.first setup ⟨levels, trail, file, node :: rest, state⟩ =
      visit setup levels trail file node state := rfl

/-! ## Visits of a list of expressions -/

/-- However far a visit comes, its record has its place in the tree. -/
theorem Began.place {env : Env} {visit record : Visit} (h : Began env visit record) :
    record.depth = visit.depth ∧ record.envDepth = visit.envDepth := by
  cases h <;> exact ⟨rfl, rfl⟩

/-- A step records a visit in its place in the tree. -/
theorem Acts.record_place {loader : Loader} {visit : Visit} {outcome : Step}
    (h : Acts loader state visit outcome) :
    outcome.record.depth = visit.depth ∧ outcome.record.envDepth = visit.envDepth := by
  cases h with
  | fail began => exact began.place
  | _ => exact ⟨rfl, rfl⟩

/-- What a point records is about its first expression, one level below the visits around it. -/
theorem Frame.Records.place {record : Visit}
    (h : Frame.Records setup ⟨levels, trail, file, node :: rest, state⟩ record) :
    record.subject = (node, file) ∧ record.depth = trail.length + 1 ∧
      record.envDepth = state.env.depth := by
  cases h with
  | tooDeep => exact ⟨rfl, rfl, rfl⟩
  | step =>
    have hacts := acts_of_stepAt (rfl : stepAt setup trail file node state = _)
    exact ⟨Prod.ext hacts.record_node hacts.record_file, hacts.record_place⟩

/-- The visits that going through expressions of a unit at one depth makes: one for each, with
deeper ones behind it. -/
inductive Siblings (depth : Nat) (file : Text) : List Node → List Visit → Prop where
  | nil : Siblings depth file [] []
  | cons {visit nodes below visits} (place : visit.depth = depth) (origin : visit.file = file)
      (deeper : ∀ other ∈ below, depth < other.depth) (behind : Siblings depth file nodes visits) :
    Siblings depth file (visit.node :: nodes) (visit :: (below ++ visits))

namespace Siblings

variable {depth : Nat} {visits : List Visit}

/-- The first of siblings is at their depth. -/
theorem depth_head (h : Siblings depth file nodes visits) :
    ∀ visit ∈ visits.head?, visit.depth = depth := by
  cases h with
  | nil => simp
  | cons place => simpa using place

/-- No visit among siblings is less deep than they are. -/
theorem depth_le (h : Siblings depth file nodes visits) : ∀ visit ∈ visits, depth ≤ visit.depth := by
  induction h with
  | nil => simp
  | cons place _ deeper _ ih =>
    intro visit hvisit
    rcases List.mem_cons.mp hvisit with rfl | hvisit
    · omega
    · rcases List.mem_append.mp hvisit with hbelow | hbehind
      · exact Nat.le_of_lt (deeper visit hbelow)
      · exact ih visit hbehind

/-- The visits of siblings at their own depth are about the expressions in order. -/
theorem subjects (h : Siblings depth file nodes visits) :
    (visits.filter fun visit => decide (visit.depth = depth)).map Visit.subject =
      nodes.map fun node => (node, file) := by
  induction h with
  | nil => rfl
  | @cons visit nodes below visits place origin deeper behind ih =>
    have hbelow : below.filter (fun visit => decide (visit.depth = depth)) = [] := by
      rw [List.filter_eq_nil_iff]
      intro other hother
      have := deeper other hother
      simp
      omega
    rw [List.filter_cons_of_pos (by simpa using place), List.filter_append, hbelow, List.nil_append,
      List.map_cons, List.map_cons, ih]
    simp [Visit.subject, origin]

end Siblings

/-- A step goes down into a body: the visit it records, the unit and the expressions of the body,
the state there, and how the state is changed on the way back. -/
inductive Descends (setup : Setup) (trail : List Visit) (file : Text) (node : Node) (state : State) :
    Visit → Text → List Node → State → (State → State) → Prop where
  | enter {record scope body origin}
      (entered : stepAt setup trail file node state = .enter record scope body origin) :
    Descends setup trail file node state record origin body ((state.record record).enter scope)
      State.leave
  | unit {record name body} (begun : stepAt setup trail file node state = .unit record name body) :
    Descends setup trail file node state record name body ((state.record record).beginUnit name)
      State.endUnit

namespace Descends

variable {record : Visit} {origin : Text} {entered : State} {back : State → State}

/-- The expansion goes on at the point before the body. -/
theorem leads (h : Descends setup trail file node state record origin body entered back)
    (levels : Nat) (rest : List Node) :
    Leads setup ⟨levels + 1, trail, file, node :: rest, state⟩
      ⟨levels, record :: trail, origin, body, entered⟩ := by
  cases h with
  | enter h => exact .enter h
  | unit h => exact .unit h

/-- The visit goes through the body and comes back. -/
theorem visit_eq (h : Descends setup trail file node state record origin body entered back)
    (levels : Nat) :
    visit setup (levels + 1) trail file node state =
      (visitAll (visit setup levels (record :: trail) origin) body entered).mapReady back := by
  cases h with
  | enter h => rw [visit_succ, h]
  | unit h => rw [visit_succ, h]

/-- Nothing is visited on the way back. -/
theorem visits_eq (h : Descends setup trail file node state record origin body entered back)
    (levels : Nat) :
    (visit setup (levels + 1) trail file node state).visits =
      (visitAll (visit setup levels (record :: trail) origin) body entered).visits := by
  have hback : ∀ state, (back state).visits = state.visits := by cases h <;> exact fun _ => rfl
  rw [h.visit_eq, Progress.visits, state_visits_mapReady hback, Progress.visits]

/-- The body is entered with its own visit recorded. -/
theorem entered_visits (h : Descends setup trail file node state record origin body entered back) :
    entered.visits.reverse = state.visits.reverse ++ [record] := by
  cases h <;> exact List.reverse_cons

/-- The step records the visit. -/
theorem record_eq (h : Descends setup trail file node state record origin body entered back) :
    (stepAt setup trail file node state).record = record := by
  cases h with
  | enter h => rw [h, Step.record]
  | unit h => rw [h, Step.record]

end Descends

/-- A visit goes the same way under two setups, if the step of its expression is the same and what
comes of its body is. -/
theorem visit_succ_congr {other : Setup} {less more : Nat}
    (hstep : stepAt other trail file node state = stepAt setup trail file node state)
    (hbody : ∀ {record origin body entered back},
      Descends setup trail file node state record origin body entered back →
        visitAll (visit other more (record :: trail) origin) body entered =
          visitAll (visit setup less (record :: trail) origin) body entered) :
    visit other (more + 1) trail file node state = visit setup (less + 1) trail file node state := by
  cases hcase : stepAt setup trail file node state with
  | fail record fault => rw [visit_succ, visit_succ, hstep, hcase]
  | done record env => rw [visit_succ, visit_succ, hstep, hcase]
  | enter record scope body origin =>
    rw [(Descends.enter hcase).visit_eq, (Descends.enter (hstep.trans hcase)).visit_eq,
      hbody (.enter hcase)]
  | unit record name body =>
    rw [(Descends.unit hcase).visit_eq, (Descends.unit (hstep.trans hcase)).visit_eq,
      hbody (.unit hcase)]

/-- A step goes down into a body, or it makes just one visit. -/
theorem descends_or_visits_eq (setup : Setup) (levels : Nat) (trail : List Visit) (file : Text)
    (node : Node) (state : State) :
    (∃ record origin body entered back,
      Descends setup trail file node state record origin body entered back) ∨
      (visit setup (levels + 1) trail file node state).visits =
        state.visits.reverse ++ [(stepAt setup trail file node state).record] := by
  rw [visit_succ]
  cases hstep : stepAt setup trail file node state with
  | fail record fault => exact .inr List.reverse_cons
  | done record env => exact .inr List.reverse_cons
  | enter record scope body origin => exact .inl ⟨_, _, _, _, _, .enter hstep⟩
  | unit record name body => exact .inl ⟨_, _, _, _, _, .unit hstep⟩

/-- Going through a list makes siblings, if visiting each expression makes one with deeper
visits behind it. Where nothing stops it, there is one for each expression; to be stopped it has
to make one. -/
theorem visitAll_siblings
    (hvisit : ∀ node state, ∃ record below,
      (∀ rest, Frame.Records setup ⟨levels, trail, file, node :: rest, state⟩ record) ∧
        (visit setup levels trail file node state).visits =
            state.visits.reverse ++ record :: below ∧
          ∀ other ∈ below, trail.length + 1 < other.depth)
    (nodes : List Node) (state : State) :
    ∃ done added, done <+: nodes ∧ Siblings (trail.length + 1) file done added ∧
      (visitAll (visit setup levels trail file) nodes state).visits =
          state.visits.reverse ++ added ∧
        (∀ last, visitAll (visit setup levels trail file) nodes state = .ready last → done = nodes) ∧
          ∀ last error, visitAll (visit setup levels trail file) nodes state = .stopped last error →
            added ≠ [] := by
  induction nodes generalizing state with
  | nil =>
    exact ⟨[], [], List.prefix_refl _, .nil, by simp [visitAll, Progress.visits, Progress.state],
      fun _ _ => rfl, by simp [visitAll]⟩
  | cons node rest ih =>
    obtain ⟨record, below, hrecords, hadded, hdeeper⟩ := hvisit node state
    obtain ⟨hsubject, hdepth, _⟩ := (hrecords rest).place
    cases hsubject
    cases hfirst : visit setup levels trail record.file record.node state with
    | stopped last error =>
      rw [hfirst] at hadded
      refine ⟨[record.node], record :: (below ++ []), ?_, .cons hdepth rfl hdeeper .nil, ?_, ?_,
        by simp⟩
      · simp
      · rw [visitAll, hfirst, Progress.andThen, hadded, List.append_nil]
      · intro last hready
        simp [visitAll, hfirst, Progress.andThen] at hready
    | ready middle =>
      rw [hfirst] at hadded
      obtain ⟨done, added, hdone, hsiblings, hrest, hall, _⟩ := ih middle
      have hmiddle : middle.visits.reverse = state.visits.reverse ++ record :: below := hadded
      refine ⟨record.node :: done, record :: (below ++ added), ?_,
        .cons hdepth rfl hdeeper hsiblings, ?_, ?_, by simp⟩
      · exact List.prefix_cons_inj record.node |>.mpr hdone
      · rw [visitAll, hfirst, Progress.andThen, hrest, hmiddle]
        simp
      · intro last hready
        rw [visitAll, hfirst, Progress.andThen] at hready
        rw [hall last hready]

/-- Visiting an expression makes one visit, with deeper ones behind it. -/
theorem visit_siblings (setup : Setup) (levels : Nat) (trail : List Visit) (file : Text)
    (node : Node) (state : State) :
    ∃ record below,
      (∀ rest, Frame.Records setup ⟨levels, trail, file, node :: rest, state⟩ record) ∧
        (visit setup levels trail file node state).visits =
            state.visits.reverse ++ record :: below ∧
          ∀ other ∈ below, trail.length + 1 < other.depth := by
  induction levels generalizing trail file node state with
  | zero =>
    refine ⟨_, [], fun _ => .tooDeep, ?_, by simp⟩
    simp [visit, Progress.visits, Progress.state, State.record]
  | succ levels ih =>
    have hrecords (rest : List Node) : Frame.Records setup
      ⟨levels + 1, trail, file, node :: rest, state⟩ (stepAt setup trail file node state).record := .step
    rcases descends_or_visits_eq setup levels trail file node state with
      ⟨record, origin, body, entered, back, hdescends⟩ | hvisits
    · rw [hdescends.record_eq] at hrecords
      obtain ⟨_, added, _, hsiblings, hadded, _⟩ :=
        visitAll_siblings (ih (record :: trail) origin) body entered
      refine ⟨record, added, hrecords, ?_, fun other hother => ?_⟩
      · rw [hdescends.visits_eq, hadded, hdescends.entered_visits, List.append_assoc,
          List.singleton_append]
      · -- The visits inside a body are one level deeper than its own visit.
        have hle : trail.length + 1 + 1 ≤ other.depth := hsiblings.depth_le other hother
        omega
    · exact ⟨_, [], hrecords, hvisits, by simp⟩

/-! ## The point of a visit -/

/-- A point at which an expansion makes a visit of its tree, given the visits before and after
that one. -/
structure Frame.Makes (setup : Setup) (whole : Progress) (frame : Frame) (earlier : List Visit)
    (record : Visit) (later : List Visit) : Prop where
  records : frame.Records setup record
  /-- The visits before it are those made when the point was reached. -/
  earlier_eq : frame.state.visits.reverse = earlier
  /-- The first expression at the point makes it and the visits below it. -/
  first_eq : (frame.first setup).visits = earlier ++ record :: record.below later
  /-- What stops there stops the expansion. -/
  stopped : ∀ {last error}, frame.first setup = .stopped last error → whole = .stopped last error
  /-- An expansion that stops has stopped at its last visit. -/
  last_stopped : later = [] → ∀ {last error}, whole = .stopped last error →
    frame.first setup = .stopped last error

namespace Frame.Makes

variable {whole : Progress} {frame : Frame} {earlier later : List Visit} {record : Visit}

/-- A visit keeps its place in the tree as visits that are not below it follow. -/
theorem extend {outer : Progress} {more : List Visit}
    (h : frame.Makes setup whole earlier record later)
    (hmore : ∀ other ∈ more.head?, other.depth ≤ record.depth)
    (hstopped : ∀ {last error}, whole = .stopped last error → outer = .stopped last error)
    (hlast : more = [] → ∀ {last error}, outer = .stopped last error → whole = .stopped last error) :
    frame.Makes setup outer earlier record (later ++ more) where
  records := h.records
  earlier_eq := h.earlier_eq
  first_eq := by rw [Visit.below_append record later more hmore, h.first_eq]
  stopped hfirst := hstopped (h.stopped hfirst)
  last_stopped := by
    intro hnone last error houter
    obtain ⟨hlater, hmore⟩ := List.append_eq_nil_iff.mp hnone
    exact h.last_stopped hlater (hlast hmore houter)

end Frame.Makes

/-- Every visit of a list is made at a point below the list, if that is so for each expression. -/
theorem visitAll_makes
    (hvisit : ∀ (node : Node) (rest : List Node) (state : State) (front : List Visit)
      (record : Visit) (later : List Visit),
      (visit setup levels trail file node state).visits =
          state.visits.reverse ++ front ++ record :: later →
        ∃ frame, Relation.ReflTransGen (Leads setup) ⟨levels, trail, file, node :: rest, state⟩ frame ∧
          frame.Makes setup (visit setup levels trail file node state)
            (state.visits.reverse ++ front) record later)
    {front : List Visit} {record : Visit}
    (h : (visitAll (visit setup levels trail file) nodes state).visits =
      state.visits.reverse ++ front ++ record :: later) :
    ∃ frame, Relation.ReflTransGen (Leads setup) ⟨levels, trail, file, nodes, state⟩ frame ∧
      frame.Makes setup (visitAll (visit setup levels trail file) nodes state)
        (state.visits.reverse ++ front) record later := by
  induction nodes generalizing state front with
  | nil =>
    have hlength := congrArg List.length h
    simp [visitAll, Progress.visits, Progress.state] at hlength
  | cons node rest ih =>
    cases hfirst : visit setup levels trail file node state with
    | stopped last error =>
      have hwhole : visitAll (visit setup levels trail file) (node :: rest) state =
          visit setup levels trail file node state := by
        rw [visitAll, hfirst, Progress.andThen]
      rw [hwhole] at h ⊢
      exact hvisit node rest state front record later h
    | ready middle =>
      have hwhole : visitAll (visit setup levels trail file) (node :: rest) state =
          visitAll (visit setup levels trail file) rest middle := by
        rw [visitAll, hfirst, Progress.andThen]
      rw [hwhole] at h ⊢
      obtain ⟨own, below, hrecords, hmiddle, hdeeper⟩ :=
        visit_siblings setup levels trail file node state
      obtain ⟨_, added, _, hsiblings, hadded, _, hstops⟩ :=
        visitAll_siblings (visit_siblings setup levels trail file) rest middle
      rw [hfirst] at hmiddle
      have hmiddle : middle.visits.reverse = state.visits.reverse ++ own :: below := hmiddle
      -- A visit of the rest of the list.
      have hbehind (front' : List Visit) (hfront : state.visits.reverse ++ front =
          middle.visits.reverse ++ front') (hlater : added = front' ++ record :: later) :
          ∃ frame, Relation.ReflTransGen (Leads setup) ⟨levels, trail, file, node :: rest, state⟩
              frame ∧
            frame.Makes setup (visitAll (visit setup levels trail file) rest middle)
              (state.visits.reverse ++ front) record later := by
        rw [hfront]
        obtain ⟨frame, hleads, hmakes⟩ := ih (by rw [hadded, hlater, List.append_assoc])
        exact ⟨frame, .head (.next hfirst) hleads, hmakes⟩
      rw [hadded] at h
      rcases List.append_eq_append_iff.mp h with ⟨front', hfront, hlater⟩ | ⟨inner, hinner, hlater⟩
      · exact hbehind front' hfront hlater
      · cases inner with
        | nil => exact hbehind [] (by simpa using hinner.symm) (by simpa using hlater.symm)
        | cons first inner =>
          -- A visit of the first expression.
          cases hlater
          have hplace : trail.length + 1 ≤ record.depth := by
            have hmem : record ∈ own :: below := by
              rw [hmiddle, List.append_assoc, List.append_cancel_left_eq] at hinner
              simp [hinner]
            rcases List.mem_cons.mp hmem with rfl | hbelow
            · exact Nat.le_of_eq (hrecords []).place.2.1.symm
            · exact Nat.le_of_lt (hdeeper record hbelow)
          obtain ⟨frame, hleads, hmakes⟩ :=
            hvisit node rest state front record inner (by rw [hfirst]; exact hinner)
          rw [hfirst] at hmakes
          refine ⟨frame, hleads, hmakes.extend ?_ (fun h => by cases h) ?_⟩
          · intro other hother
            rw [hsiblings.depth_head other hother]
            exact hplace
          · exact fun hnone _ _ hwhole => absurd hnone (hstops _ _ hwhole)

/-- The first visit that an expression makes is made at its own point. -/
theorem makes_self (rest : List Node) {record : Visit}
    (h : (visit setup levels trail file node state).visits =
      state.visits.reverse ++ record :: later) :
    Frame.Makes setup (visit setup levels trail file node state)
      ⟨levels, trail, file, node :: rest, state⟩ state.visits.reverse record later := by
  obtain ⟨own, below, hrecords, hadded, hdeeper⟩ := visit_siblings setup levels trail file node state
  rw [h, List.append_cancel_left_eq] at hadded
  cases hadded
  have hbelow : record.below later = later :=
    Visit.below_eq_self fun other hother => (hrecords []).place.2.1 ▸ hdeeper other hother
  exact ⟨hrecords rest, rfl, by rw [hbelow]; exact h, id, fun _ => id⟩

/-- Every visit that an expression leads to is made at a point below it. -/
theorem visit_makes (node : Node) (rest : List Node) (state : State) (front : List Visit)
    (record : Visit) (later : List Visit)
    (h : (visit setup levels trail file node state).visits =
      state.visits.reverse ++ front ++ record :: later) :
    ∃ frame, Relation.ReflTransGen (Leads setup) ⟨levels, trail, file, node :: rest, state⟩ frame ∧
      frame.Makes setup (visit setup levels trail file node state)
        (state.visits.reverse ++ front) record later := by
  induction levels generalizing trail file node rest state front record later with
  | zero =>
    have hlength := congrArg List.length h
    obtain rfl : front = [] := by
      rw [← List.length_eq_zero_iff]
      simp [visit, Progress.visits, Progress.state, State.record] at hlength
      omega
    simp only [List.append_nil] at h ⊢
    exact ⟨_, .refl, makes_self rest h⟩
  | succ levels ih =>
    cases front with
    | nil =>
      simp only [List.append_nil] at h ⊢
      exact ⟨_, .refl, makes_self rest h⟩
    | cons own front =>
      rcases descends_or_visits_eq setup levels trail file node state with
        ⟨first, origin, body, entered, back, hdescends⟩ | hvisits
      · -- The first visit is that of the step itself, and the others are made in the body.
        obtain ⟨_, added, _, _, hadded, _⟩ :=
          visitAll_siblings (visit_siblings setup levels (first :: trail) origin) body entered
        rw [hdescends.visits_eq] at h
        have hown : first = own := by
          rw [hadded, hdescends.entered_visits, List.append_assoc, List.append_assoc,
            List.append_cancel_left_eq] at h
          exact (List.cons.inj h).1
        have hfront : state.visits.reverse ++ own :: front = entered.visits.reverse ++ front := by
          rw [hdescends.entered_visits, hown, List.append_assoc, List.singleton_append]
        rw [hfront] at h ⊢
        obtain ⟨frame, hleads, hmakes⟩ := visitAll_makes ih h
        refine ⟨frame, .head (hdescends.leads levels rest) hleads, ?_⟩
        rw [hdescends.visit_eq, ← List.append_nil later]
        exact hmakes.extend (by simp) (fun hstopped => by rw [hstopped, Progress.mapReady])
          fun _ _ _ => eq_stopped_of_mapReady
      · have hlength := congrArg List.length (hvisits.symm.trans h)
        simp at hlength

/-- The first visit of an expansion is its root. -/
theorem exists_visits_eq (setup : Setup) (name : Text) (body : List Node) :
    ∃ added, (run setup name body).visits = Visit.root name body :: added := by
  obtain ⟨_, added, _, _, hadded, _⟩ :=
    visitAll_siblings (visit_siblings setup setup.limit [] name) body (.initial name body)
  exact ⟨added, hadded⟩

/-- Every visit of an expansion but its root was made at a point it reached. -/
theorem exists_reached_of_visits {earlier : List Visit} {record : Visit}
    (h : (run setup name body).visits = earlier ++ record :: later) (hearlier : earlier ≠ []) :
    ∃ frame, Reached setup name body frame ∧
      frame.Makes setup (run setup name body) earlier record later := by
  obtain ⟨added, hadded⟩ := exists_visits_eq setup name body
  obtain ⟨root, front, rfl⟩ := List.exists_cons_of_ne_nil hearlier
  obtain rfl : Visit.root name body = root := (List.cons.inj (hadded.symm.trans h)).1
  exact visitAll_makes visit_makes h

/-- Every visit that calls a function was made at a point reached, since the root calls none. -/
theorem exists_reached_of_function {earlier : List Visit} {record : Visit} {f : Function}
    (h : (run setup name body).visits = earlier ++ record :: later)
    (hfunction : record.function = some f) :
    ∃ frame, Reached setup name body frame ∧
      frame.Makes setup (run setup name body) earlier record later := by
  refine exists_reached_of_visits h ?_
  rintro rfl
  obtain ⟨added, hadded⟩ := exists_visits_eq setup name body
  obtain rfl : Visit.root name body = record := (List.cons.inj (hadded.symm.trans h)).1
  cases hfunction

/-! ## The visits around a point, and those below a visit -/

/-- Going on, down and back keeps the visits around a point those of its trail. -/
theorem enclosing_kept (setup : Setup) (root : Visit) :
    Kept setup (fun trail _ state =>
      Visit.enclosing (trail.length + 1) state.visits = trail ++ [root]) (fun _ _ => True) where
  done := by
    intro trail file node state record env hstate _ hstep
    have hdepth : record.depth = trail.length + 1 := (acts_of_stepAt hstep).record_place.1
    have hskip : ¬ record.depth < trail.length + 1 := by omega
    simpa [State.record, Visit.enclosing, hskip] using hstate
  enter := by
    intro trail file node state record scope body origin hstate _ hstep
    have hdepth : record.depth = trail.length + 1 := (acts_of_stepAt hstep).record_place.1
    refine ⟨?_, fun _ _ => trivial⟩
    simpa [State.record, State.enter, Visit.enclosing, hdepth] using hstate
  leave := by
    intro trail file node state record scope body origin after _ _ hstep hafter
    exact Visit.enclosing_of_succ (acts_of_stepAt hstep).record_place.1 hafter
  unit := by
    intro trail file node state record name body hstate _ hstep
    have hdepth : record.depth = trail.length + 1 := (acts_of_stepAt hstep).record_place.1
    refine ⟨?_, fun _ _ => trivial⟩
    simpa [State.record, State.beginUnit, Visit.enclosing, hdepth] using hstate
  endUnit := by
    intro trail file node state record name body after _ _ hstep hafter
    exact Visit.enclosing_of_succ (acts_of_stepAt hstep).record_place.1 hafter

/-- The visits around a point reached are those of its trail, and the root. -/
theorem enclosing_of_reached {frame : Frame} (h : Reached setup name body frame) :
    Visit.enclosing (frame.trail.length + 1) frame.state.visits =
      frame.trail ++ [Visit.root name body] := by
  refine ((enclosing_kept setup (Visit.root name body)).reached ?_ (fun _ _ => trivial) h).1
  simp [State.initial, Visit.root, Visit.enclosing]

namespace Frame.Makes

variable {whole : Progress} {earlier later : List Visit} {record : Visit}

/-- The visits around a visit are those around the point where it is made. -/
theorem around_eq {frame : Frame} (hreached : Reached setup name body frame)
    (h : frame.Makes setup whole earlier record later) :
    record.around earlier = frame.trail ++ [Visit.root name body] := by
  obtain ⟨levels, trail, file, nodes, state⟩ := frame
  cases nodes with
  | nil => cases h.records
  | cons node rest =>
    rw [Visit.around, h.records.place.2.1, ← h.earlier_eq, List.reverse_reverse]
    exact enclosing_of_reached hreached

/-- A visit within the limit is recorded by the step at its point. -/
theorem record_eq
    (h : Frame.Makes setup whole ⟨levels + 1, trail, file, node :: rest, state⟩ earlier record later) :
    (stepAt setup trail file node state).record = record := by
  cases h.records with
  | step => rfl

/-- Nothing is below a visit if its expression makes no other. -/
theorem below_eq_nil {frame : Frame} {own : Visit}
    (h : frame.Makes setup whole earlier record later)
    (hfirst : (frame.first setup).visits = earlier ++ [own]) : record.below later = [] :=
  (List.cons.inj (List.append_cancel_left (h.first_eq.symm.trans hfirst))).2

/-- Below a visit that leads into a body are the visits made in it. -/
theorem first_eq_of_descends {origin : Text} {entered : State} {back : State → State}
    (h : Frame.Makes setup whole ⟨levels + 1, trail, file, node :: rest, state⟩ earlier record later)
    (hdescends : Descends setup trail file node state record origin body entered back) :
    (visitAll (visit setup levels (record :: trail) origin) body entered).visits =
      entered.visits.reverse ++ record.below later := by
  have hfirst := h.first_eq
  rwa [Frame.first_cons, hdescends.visits_eq, ← h.earlier_eq, List.append_cons,
    ← hdescends.entered_visits] at hfirst

/-- Directly below a visit that leads into a body are visits of its expressions, in order and in
its unit; where the expansion comes to its end, of all of them. -/
theorem children_of_descends {origin : Text} {entered : State} {back : State → State}
    (h : Frame.Makes setup whole ⟨levels + 1, trail, file, node :: rest, state⟩ earlier record later)
    (hdescends : Descends setup trail file node state record origin body entered back) :
    (record.children later).map Visit.subject <+: body.map (fun child => (child, origin)) ∧
      ∀ last, whole = .ready last →
        (record.children later).map Visit.subject = body.map fun child => (child, origin) := by
  obtain ⟨done, added, hdone, hsiblings, hadded, hall, _⟩ :=
    visitAll_siblings (visit_siblings setup levels (record :: trail) origin) body entered
  have hbelow : record.below later = added :=
    List.append_cancel_left ((h.first_eq_of_descends hdescends).symm.trans hadded)
  have hchildren : (record.children later).map Visit.subject =
      done.map fun child => (child, origin) := by
    rw [Visit.children, hbelow, h.records.place.2.1]
    exact hsiblings.subjects
  rw [hchildren]
  refine ⟨hdone.map _, fun last hlast => ?_⟩
  cases hbody : visitAll (visit setup levels (record :: trail) origin) body entered with
  | ready after => rw [hall after hbody]
  | stopped after error =>
    have hstopped := h.stopped (by rw [Frame.first_cons, hdescends.visit_eq, hbody, Progress.mapReady])
    cases hlast.symm.trans hstopped

/-- Nothing is below a visit beyond the limit, and the expansion stops. -/
theorem below_of_tooDeep
    (h : Frame.Makes setup whole ⟨0, trail, file, node :: rest, state⟩ earlier record later) :
    record.below later = [] ∧ ∃ last error, whole = .stopped last error := by
  have hfirst : (Frame.first setup ⟨0, trail, file, node :: rest, state⟩).visits =
      earlier ++ [.start trail node file state.env] := by
    rw [← h.earlier_eq]
    exact List.reverse_cons
  exact ⟨h.below_eq_nil hfirst, _, _, h.stopped rfl⟩

/-- In an expansion that comes to its end, no step that makes a visit fails. -/
theorem stepAt_ne_fail {last : State}
    (h : Frame.Makes setup (.ready last) ⟨levels + 1, trail, file, node :: rest, state⟩ earlier record later)
    (other : Visit) (fault : Fault) : stepAt setup trail file node state ≠ .fail other fault := by
  intro hfail
  have hfirst : Frame.first setup ⟨levels + 1, trail, file, node :: rest, state⟩ =
      .stopped (state.record other) ⟨.fault fault, some (other :: trail)⟩ := by
    rw [Frame.first_cons, visit_succ, hfail]
  cases h.stopped hfirst

/-- An expansion stops at a visit beyond the limit because of the limit. -/
theorem stopsAt_of_tooDeep
    (h : Frame.Makes setup whole ⟨0, trail, file, node :: rest, state⟩ earlier record later)
    {kind : FaultKind} (hstops : whole.StopsAt record later kind) : kind = .recursionLimit := by
  obtain ⟨hlater, last, fault, outer, hwhole, rfl⟩ := hstops
  have hfirst := h.last_stopped hlater hwhole
  rw [Frame.first_cons, visit] at hfirst
  obtain ⟨_, herror⟩ := Progress.stopped.inj hfirst
  obtain ⟨rfl, _⟩ := Failure.fault.inj (Error.mk.inj herror).1
  rfl

/-- An expansion stops at a visit within the limit because its step fails. -/
theorem stopsAt_iff
    (h : Frame.Makes setup whole ⟨levels + 1, trail, file, node :: rest, state⟩ earlier record later)
    (hwhole : whole.visits = earlier ++ record :: later) (kind : FaultKind) :
    whole.StopsAt record later kind ↔
      ∃ fault, stepAt setup trail file node state = .fail record fault ∧ fault.kind = kind := by
  have hrecord := h.record_eq
  constructor
  · rintro ⟨rfl, last, fault, outer, hstopped, hkind⟩
    have hfirst := h.last_stopped rfl hstopped
    rw [Frame.first_cons] at hfirst
    -- A stop inside a body would have made a visit below this one.
    have hleaf {origin : Text} {body : List Node} {entered : State} {back : State → State} :
        ¬ Descends setup trail file node state record origin body entered back := by
      intro hdescends
      obtain ⟨_, added, _, _, hadded, _, hstops⟩ :=
        visitAll_siblings (visit_siblings setup levels (record :: trail) origin) body entered
      rw [hdescends.visit_eq] at hfirst
      refine hstops _ _ (eq_stopped_of_mapReady hfirst) ?_
      exact List.append_cancel_left (hadded.symm.trans (h.first_eq_of_descends hdescends))
    rw [visit_succ] at hfirst
    cases hstep : stepAt setup trail file node state with
    | fail own reason =>
      rw [hstep] at hfirst hrecord
      obtain ⟨_, herror⟩ := Progress.stopped.inj hfirst
      obtain rfl : reason = fault := Failure.fault.inj (Error.mk.inj herror).1
      exact ⟨reason, by rw [← hrecord, Step.record], hkind⟩
    | done own env =>
      rw [hstep] at hfirst
      cases hfirst
    | enter own scope body origin =>
      rw [hstep] at hrecord
      subst hrecord
      exact absurd (.enter hstep) hleaf
    | unit own name body =>
      rw [hstep] at hrecord
      subst hrecord
      exact absurd (.unit hstep) hleaf
  · rintro ⟨fault, hstep, hkind⟩
    have hstopped := h.stopped (by rw [Frame.first_cons, visit_succ, hstep])
    refine ⟨?_, _, fault, trail, hstopped, hkind⟩
    rw [hstopped, ← h.earlier_eq] at hwhole
    simpa [Progress.visits, Progress.state, State.record] using hwhole

end Frame.Makes

/-- At every point the visits around it and the levels left make up the limit. -/
theorem levels_add_length {frame : Frame} (h : Reached setup name body frame) :
    frame.levels + frame.trail.length = setup.limit := by
  induction h with
  | refl => rfl
  | tail _ hleads ih =>
    cases hleads with
    | next => exact ih
    | enter | unit =>
      simp only [List.length_cons] at ih ⊢
      omega

end Expansion

end Tapestry

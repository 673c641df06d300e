import Tapestry.Expansion.Build
import Tapestry.File.Library
import Tapestry.Proofs.ScopeChain

/-!
# What a splice point inserts

A splice point in the body of a block template stands for the block that the caller of the
template owns. The caller is the nearest visit around the splice point that calls the template,
however the two came together: through other templates, through blocks passed on from template
to template, or through units.

Without such a caller the splice point cannot be expanded, and the fault says so. A splice point
beyond the limit on depths is not looked at: there the fault is about the limit.
-/

namespace Tapestry

/-- The block template that a splice point belongs to. -/
def Node.owner? : Node → Option Text
  | .splice _ owner => some owner
  | _ => none

/-- Only splice points belong to a block template. -/
theorem Node.exists_of_owner? {node : Node} {owner : Text} (h : node.owner? = some owner) :
    ∃ head, node = .splice head owner := by
  cases node with
  | call head | block head body => cases h
  | splice head other => exact ⟨head, by rw [Option.some.inj h]⟩

/-- The nearest visit around a visit that calls a block template, given the visits before it in
pre-order. -/
def Visit.caller? (visit : Visit) (owner : Text) (earlier : List Visit) : Option Visit :=
  (visit.around earlier).find? fun other => decide (other.blockTemplate? = some owner)

namespace Expansion

variable {setup : Setup} {levels : Nat} {trail earlier later : List Visit} {file name owner : Text}
  {head : Statement} {rest body : List Node} {state : State} {visit : Visit} {block : CallerBlock}
  {whole : Progress}

/-- A splice point leads into the block registered for its owner. -/
theorem stepAt_splice_of_some (setup : Setup) (trail : List Visit) (file : Text) (head : Statement)
    (h : state.env.block? owner = some block) :
    stepAt setup trail file (.splice head owner) state =
      .enter { Visit.start trail (.splice head owner) file state.env with bodyParse := block.parse } .empty
        block.body block.file := by
  simp only [stepAt, step, Visit.start, stepSplice, h]

/-- A splice point fails if no block is registered for its owner. -/
theorem stepAt_splice_of_none (setup : Setup) (trail : List Visit) (file : Text) (head : Statement)
    (h : state.env.block? owner = none) :
    stepAt setup trail file (.splice head owner) state =
      .fail (.start trail (.splice head owner) file state.env)
        (.blame .codeInceptionNotFound head.head ("no block was passed to `" ++ owner ++ "`")) := by
  simp only [stepAt, step, Visit.start, stepSplice, h]
  rfl

/-- Directly below a splice point are visits of the block of its caller. -/
theorem children_of_caller
    (hmakes : Frame.Makes setup whole ⟨levels, trail, file, .splice head owner :: rest, state⟩ earlier
      visit later)
    (hblock : state.env.block? owner = some block) :
    (visit.children later).map Visit.subject <+: block.body.map (fun child => (child, block.file)) ∧
      ∀ last, whole = .ready last →
        (visit.children later).map Visit.subject = block.body.map fun child => (child, block.file) := by
  cases levels with
  | zero =>
    obtain ⟨hbelow, last, error, hstopped⟩ := hmakes.below_of_tooDeep
    have hchildren : visit.children later = [] := by rw [Visit.children, hbelow, List.filter_nil]
    rw [hchildren, hstopped]
    exact ⟨List.nil_prefix, fun _ hready => by cases hready⟩
  | succ levels =>
    have hstep := stepAt_splice_of_some setup trail file head hblock
    have hrecord := hmakes.record_eq
    rw [hstep, Step.record] at hrecord
    rw [hrecord] at hstep
    exact hmakes.children_of_descends (.enter hstep)

/-- A splice point within the limit stops the expansion for want of a caller exactly if it has
none. -/
theorem stopsAt_iff_of_splice
    (hmakes : Frame.Makes setup whole ⟨levels, trail, file, .splice head owner :: rest, state⟩ earlier
      visit later)
    (hwhole : whole.visits = earlier ++ visit :: later) :
    whole.StopsAt visit later .codeInceptionNotFound ↔ 0 < levels ∧ state.env.block? owner = none := by
  cases levels with
  | zero =>
    refine ⟨fun hstops => ?_, fun h => absurd h.1 (Nat.lt_irrefl 0)⟩
    cases hmakes.stopsAt_of_tooDeep hstops
  | succ levels =>
    rw [hmakes.stopsAt_iff hwhole]
    constructor
    · rintro ⟨fault, hstep, _⟩
      refine ⟨Nat.succ_pos levels, ?_⟩
      cases hblock : state.env.block? owner with
      | none => rfl
      | some block =>
        rw [stepAt_splice_of_some setup trail file head hblock] at hstep
        cases hstep
    · rintro ⟨_, hblock⟩
      have hstep := stepAt_splice_of_none setup trail file head hblock
      have hrecord := hmakes.record_eq
      rw [hstep, Step.record] at hrecord
      rw [hrecord] at hstep
      exact ⟨_, hstep, rfl⟩

/-- The scopes of every point are those opened by the visits around it, imports left out, and so
for every visit but the root; its own scope is as deep as the visit itself, less the units asked
for around it. Directly below a splice point are visits of the block of its caller, in order and
in the unit of the block: all of them where the expansion comes to its end. For want of a caller
it stops at the splice point, if that is within the limit. -/
theorem splice_inserts_callers_block (setup : Setup) (name : Text) (body : List Node) :
    (∀ frame, Reached setup name body frame →
      frame.state.env.OpenedBy (scopeOwners
        (Visit.enclosing (frame.trail.length + 1) frame.state.visits))) ∧
    ∀ earlier visit later,
      (run setup name body).visits = earlier ++ visit :: later → earlier ≠ [] →
        (∃ frame, Reached setup name body frame ∧
          frame.Makes setup (run setup name body) earlier visit later ∧
            frame.state.env.OpenedBy (scopeOwners (visit.around earlier))) ∧
        visit.scopeDepth + (visit.around earlier).countP Visit.asksForUnit = visit.depth ∧
        ∀ owner, visit.node.owner? = some owner →
          (∀ caller, visit.caller? owner earlier = some caller →
            (visit.children later).map Visit.subject <+:
                caller.node.body.map (fun child => (child, caller.file)) ∧
              ∀ last, run setup name body = .ready last →
                (visit.children later).map Visit.subject =
                  caller.node.body.map fun child => (child, caller.file)) ∧
          ((run setup name body).StopsAt visit later .codeInceptionNotFound ↔
            visit.depth ≤ setup.limit ∧ visit.caller? owner earlier = none) := by
  constructor
  · intro frame hreached
    rw [enclosing_of_reached hreached]
    exact openedBy_of_reached hreached
  · intro earlier visit later hvisits hearlier
    obtain ⟨frame, hreached, hmakes⟩ := exists_reached_of_visits hvisits hearlier
    have haround := hmakes.around_eq hreached
    have hchain := openedBy_of_reached hreached
    have hdepths := depth_add_countP hreached
    have hlevels := levels_add_length hreached
    have hblock := block?_of_reached hreached
    rw [← haround] at hchain hdepths hblock
    refine ⟨⟨frame, hreached, hmakes, hchain⟩, ?_⟩
    obtain ⟨levels, trail, file, nodes, state⟩ := frame
    cases nodes with
    | nil => cases hmakes.records
    | cons node rest =>
      obtain ⟨hsubject, hdepth, henvDepth⟩ := hmakes.records.place
      refine ⟨?_, fun owner howner => ?_⟩
      · rw [Visit.scopeDepth, hdepth, if_neg (Nat.succ_ne_zero _), henvDepth]
        simp only at hdepths
        omega
      · cases hsubject
        obtain ⟨head, hsplice⟩ := Node.exists_of_owner? howner
        rw [hsplice] at hmakes
        have hcalled : state.env.block? owner = (visit.caller? owner earlier).map Visit.block :=
          hblock owner
        constructor
        · intro caller hcaller
          rw [hcaller, Option.map_some] at hcalled
          exact children_of_caller hmakes hcalled
        · rw [stopsAt_iff_of_splice hmakes hvisits, hcalled, Option.map_eq_none_iff, hdepth]
          simp only at hlevels
          refine and_congr_left fun _ => ?_
          omega

/-- An expansion with a build has come to its end. -/
theorem exists_ready_of_build {progress : Progress} (h : progress.build.isOk = true) :
    ∃ last, progress = .ready last := by
  cases progress with
  | ready last => exact ⟨last, rfl⟩
  | stopped last error => cases h

/-- A unit that passes a call of its own to a block template. -/
def doubling : Library :=
  ⟨[("tools", Text.ofString "macroblock global twice\n    code\n    code\n" ++
    "twice\n    give\n")]⟩

/-- A source whose block reaches its place through a template, a unit and another block. -/
def handedDown : Text :=
  Text.ofString "macroblock global outer\n    macro global give\n        code\n    import 'tools'\n" ++
    "outer\n    reg x\n    _add x 3\n"

/-- The innermost splice point stands six visits deep, one of which asks for a unit, and inserts
the block of the outermost call. -/
theorem splice_inserts_callers_block_handedDown :
    ∃ body earlier visit later caller, Source.parse handedDown = .ok body ∧
      (run ⟨doubling.loader, 8⟩ "main" body).visits = earlier ++ visit :: later ∧
        visit.node.owner? = some (Text.ofString "outer") ∧ visit.depth = 6 ∧ visit.scopeDepth = 5 ∧
          visit.caller? "outer" earlier = some caller ∧ caller.depth = 1 ∧
            (visit.children later).map Visit.subject =
              caller.node.body.map fun child => (child, caller.file) := by
  have hready : (Source.parse handedDown).toOption.map (fun body =>
      (run ⟨doubling.loader, 8⟩ "main" body).build.isOk) = some true := by decide +kernel
  have hplace : (Source.parse handedDown).toOption.map (fun body =>
      let visits := (run ⟨doubling.loader, 8⟩ "main" body).visits
      visits[9]?.map fun visit => (visit.node.owner?, visit.depth, visit.scopeDepth,
        (visit.caller? "outer" (visits.take 9)).map fun caller => caller.depth)) =
      some (some (some (Text.ofString "outer"), 6, 5, some 1)) := by decide +kernel
  obtain ⟨body, hparse, hready⟩ := Option.map_eq_some_iff.mp hready
  rw [hparse, Option.map_some, Option.some.injEq] at hplace
  obtain ⟨visit, hvisit, hplace⟩ := Option.map_eq_some_iff.mp hplace
  simp only [Prod.mk.injEq] at hplace
  obtain ⟨howner, hdepth, hscope, hcaller⟩ := hplace
  obtain ⟨caller, hcaller, houtermost⟩ := Option.map_eq_some_iff.mp hcaller
  have hvisits := Visit.eq_append_of_getElem? hvisit
  obtain ⟨last, hlast⟩ := exists_ready_of_build hready
  have hsplice := (splice_inserts_callers_block ⟨doubling.loader, 8⟩ "main" body).2 _ _ _ hvisits
    (by simpa using List.ne_nil_of_mem (List.mem_of_getElem? hvisit))
  exact ⟨body, _, visit, _, caller, eq_ok_of_toOption hparse, hvisits, howner, hdepth, hscope,
    hcaller, houtermost, ((hsplice.2.2 _ howner).1 caller hcaller).2 last hlast⟩

/-- A source that keeps a splice point in a template for everyone, and calls that template where
no block is passed, two visits deep. -/
def straying : Text :=
  Text.ofString "macroblock local wrap\n    macro global leak\n        code\nwrap\n    reg x\n" ++
    "macro local deeper\n    leak\ndeeper\n"

/-- A splice point without a caller that is beyond the limit does not stop the expansion for want
of a caller. -/
theorem splice_beyond_limit :
    ∃ body earlier visit later, Source.parse straying = .ok body ∧
      (run ⟨doubling.loader, 2⟩ "main" body).visits = earlier ++ visit :: later ∧
        earlier ≠ [] ∧ visit.node.owner? = some (Text.ofString "wrap") ∧
          visit.caller? "wrap" earlier = none ∧
            ¬ (run ⟨doubling.loader, 2⟩ "main" body).StopsAt visit later
              .codeInceptionNotFound := by
  have hfacts : (Source.parse straying).toOption.map (fun body =>
      let progress := run ⟨doubling.loader, 2⟩ "main" body
      (progress.faultKind?, progress.visits[7]?.map fun visit =>
        (visit.node.owner?, (visit.caller? "wrap" (progress.visits.take 7)).isNone))) =
      some (some .recursionLimit, some (some (Text.ofString "wrap"), true)) := by decide +kernel
  obtain ⟨body, hparse, hfacts⟩ := Option.map_eq_some_iff.mp hfacts
  obtain ⟨hkind, hfacts⟩ := Prod.mk.inj hfacts
  obtain ⟨visit, hvisit, hfacts⟩ := Option.map_eq_some_iff.mp hfacts
  obtain ⟨howner, hcaller⟩ := Prod.mk.inj hfacts
  refine ⟨body, _, visit, _, eq_ok_of_toOption hparse, Visit.eq_append_of_getElem? hvisit,
    by simpa using List.ne_nil_of_mem (List.mem_of_getElem? hvisit), howner,
    Option.isNone_iff_eq_none.mp hcaller, fun hstops => ?_⟩
  cases hkind.symm.trans hstops.faultKind?_eq

end Expansion

end Tapestry

import Tapestry.Proofs.LoopRefinement
import Tapestry.Proofs.ScopeContents

/-!
# Step limits

A limit on the steps of a machine only cuts its run short. A run that ends within the limit ends as
it does without one, also where the step that ends it is the last one allowed. Any other run takes
just the steps allowed and then stops where the machine without a limit is at that time.

Everything rests on what a single step can do: halt, stop because of the limit, or execute an
instruction, which neither sees the limit nor the number of steps.
-/

namespace Tapestry.Machine

/-- Whether the steps allowed have been taken. -/
def isSpent (m : Machine) : Bool := 0 < m.limit && m.limit ≤ m.steps

/-- The same machine with another number of steps allowed. -/
def limited (m : Machine) (limit : Nat) : Machine := { m with limit }

variable {m last cut : Machine} {ending : Ending} {n s : Nat}

/-! ## One step -/

/-- A machine at its end halts. -/
theorem step_of_isHalted (h : m.isHalted = true) :
    m.step = ({ m with stopped := true }, some .halted) := by
  unfold step
  split
  case isTrue hstopped => rw [← hstopped]
  case isFalse hrunning =>
    have hend : m.program[m.pc]? = none := by
      simpa [isHalted, hrunning] using h
    rw [hend]

/-- A machine before its end stops because of the limit, or it executes an instruction. -/
theorem exists_step_eq (h : m.isHalted = false) :
    ∃ i, m.program[m.pc]? = some i ∧
      m.step = if m.isSpent then (m, some (.stepLimit m.limit))
        else { m with steps := m.steps + 1 }.execute i := by
  obtain ⟨hrunning, hinside⟩ := Bool.or_eq_false_iff.mp h
  have hlt : m.pc < m.program.size := by simpa using hinside
  refine ⟨_, Array.getElem?_eq_getElem hlt, ?_⟩
  rw [step, if_neg (by rw [hrunning]; simp), Array.getElem?_eq_getElem hlt]
  rfl

/-- An instruction that does not read sees neither the policy, nor the limit, nor the input. -/
theorem execute_of_ne_read {i : LinkedInstruction} (h : i.op ≠ .read) (m : Machine) (policy : EofPolicy)
    (limit : Nat) (input : Input) :
    { m with policy, limit, input }.execute i =
      ({ (m.execute i).1 with policy, limit, input }, (m.execute i).2) := by
  unfold execute
  cases hop : i.op with
  | moveCell | moveCursor | nop | undefined => rfl
  | read => exact absurd hop h
  | print =>
    unfold writeCell
    dsimp only
    split <;> rfl
  | loopEnter | loopExit =>
    by_cases hzero : m.cell = 0
    all_goals
      rw [cell] at hzero
      simp only [cell, hzero, if_true, if_false]
      rfl

/-- No instruction sees the limit. -/
theorem execute_limited (m : Machine) (n : Nat) (i : LinkedInstruction) :
    (m.limited n).execute i = ((m.execute i).1.limited n, (m.execute i).2) := by
  by_cases hread : i.op = .read
  · simp only [execute, hread]
    unfold readCell readPastEnd
    cases hbytes : m.input.bytes with
    | cons byte rest => simp [limited, hbytes, advance]
    | nil =>
      cases hbroken : m.input.broken with
      | some reason => simp [limited, hbytes, hbroken]
      | none => cases hpolicy : m.policy <;> simp [limited, hbytes, hbroken, hpolicy, advance]
  · have hkept := execute_of_ne_read hread m m.policy m.limit m.input
    refine (execute_of_ne_read hread m m.policy n m.input).trans ?_
    rw [show m.execute i = _ from hkept]
    rfl

/-- No instruction counts steps. -/
theorem execute_steps (m : Machine) (i : LinkedInstruction) : (m.execute i).1.steps = m.steps := by
  unfold execute
  cases i.op with
  | moveCell | moveCursor | nop | undefined => rfl
  | print =>
    unfold writeCell
    dsimp only
    split <;> rfl
  | read =>
    unfold readCell readPastEnd
    dsimp only
    split
    · rfl
    · split <;> rfl
  | loopEnter | loopExit =>
    dsimp only
    split <;> rfl

/-- A step counts one if it goes on, and at most one if it stops. -/
theorem steps_step (m : Machine) :
    m.steps ≤ m.step.1.steps ∧ m.step.1.steps ≤ m.steps + 1 ∧
      (m.step.2 = none → m.step.1.steps = m.steps + 1) := by
  cases hhalted : m.isHalted with
  | true =>
    rw [step_of_isHalted hhalted]
    exact ⟨Nat.le_refl _, Nat.le_succ _, fun h => by cases h⟩
  | false =>
    obtain ⟨i, -, hstep⟩ := exists_step_eq hhalted
    cases hspent : m.isSpent with
    | true =>
      rw [hstep, hspent, if_pos rfl]
      exact ⟨Nat.le_refl _, Nat.le_succ _, fun h => by cases h⟩
    | false =>
      rw [hspent, if_neg Bool.false_ne_true] at hstep
      have hsteps : m.step.1.steps = m.steps + 1 := by rw [hstep, execute_steps]
      exact ⟨by omega, by omega, fun _ => hsteps⟩

/-- A machine without a limit steps as under a limit that leaves room for the step. -/
theorem step_limited (hfree : m.limit = 0) (hroom : m.step.1.steps ≤ n) :
    (m.limited n).step = (m.step.1.limited n, m.step.2) := by
  cases hhalted : m.isHalted with
  | true =>
    rw [step_of_isHalted hhalted, step_of_isHalted (show (m.limited n).isHalted = true from hhalted)]
    rfl
  | false =>
    obtain ⟨i, hat, hstep⟩ := exists_step_eq hhalted
    obtain ⟨j, hat', hstep'⟩ := exists_step_eq (show (m.limited n).isHalted = false from hhalted)
    obtain rfl : i = j := Option.some.inj (hat.symm.trans hat')
    have hfree : m.isSpent = false := by simp [isSpent, hfree]
    rw [hfree, if_neg Bool.false_ne_true] at hstep
    have hsteps : m.step.1.steps = m.steps + 1 := by rw [hstep, execute_steps]
    have hspent : (m.limited n).isSpent = false := by
      have hbelow : ¬ n ≤ m.steps := by omega
      simp [isSpent, limited, hbelow]
    rw [hstep', hspent, if_neg Bool.false_ne_true, hstep]
    exact execute_limited { m with steps := m.steps + 1 } n i

/-- A machine that has taken the steps allowed stops, unless it is at its end. -/
theorem step_limited_of_spent (hn : 0 < n) (hsteps : m.steps = n) (hrunning : m.isHalted = false) :
    (m.limited n).step = (m.limited n, some (.stepLimit n)) := by
  obtain ⟨i, -, hstep⟩ := exists_step_eq (show (m.limited n).isHalted = false from hrunning)
  have hspent : (m.limited n).isSpent = true := by simp [isSpent, limited, hn, hsteps]
  rw [hstep, hspent, if_pos rfl]
  rfl

/-! ## Runs -/

/-- What each step keeps, a run keeps. -/
theorem rel_runFor {R : Machine → Machine → Prop} (hrefl : ∀ m, R m m)
    (htrans : ∀ {m next later}, R m next → R next later → R m later) (hstep : ∀ m, R m m.step.1)
    (m : Machine) (s : Nat) : R m (m.runFor s).1 := by
  induction s generalizing m with
  | zero => exact hrefl m
  | succ s ih =>
    have hfirst := hstep m
    cases hnext : m.step with
    | mk next stop =>
      rw [hnext] at hfirst
      cases stop with
      | none =>
        rw [runFor_succ hnext]
        exact htrans hfirst (ih next)
      | some stop =>
        rw [runFor_stop hnext]
        exact hfirst

/-- A run that was cut off goes on from where it was. -/
theorem runFor_add_of_cut (h : m.runFor s = (cut, .unfinished)) (t : Nat) :
    m.runFor (s + t) = cut.runFor t := by
  induction s generalizing m with
  | zero =>
    obtain rfl : m = cut := (Prod.mk.inj h).1
    rw [Nat.zero_add]
  | succ s ih =>
    rw [Nat.add_right_comm]
    cases hstep : m.step with
    | mk next stop =>
      cases stop with
      | none =>
        rw [runFor_succ hstep] at h ⊢
        exact ih h
      | some stop =>
        rw [runFor_stop hstep] at h
        exact absurd (Prod.mk.inj h).2 (Ending.ofStop_ne_unfinished stop)

/-- A run that has ended stays as it is. -/
theorem runFor_add_of_ended (h : (m.runFor s).2 ≠ .unfinished) (t : Nat) :
    m.runFor (s + t) = m.runFor s := by
  induction s generalizing m with
  | zero => exact absurd rfl h
  | succ s ih =>
    rw [Nat.add_right_comm]
    cases hstep : m.step with
    | mk next stop =>
      cases stop with
      | none =>
        rw [runFor_succ hstep] at h ⊢
        rw [runFor_succ hstep]
        exact ih h
      | some stop => rw [runFor_stop hstep, runFor_stop hstep]

/-- A run counts its steps: one for each that goes on, and at most one for the step that ends it. -/
theorem steps_runFor (m : Machine) (s : Nat) :
    m.steps ≤ (m.runFor s).1.steps ∧ (m.runFor s).1.steps ≤ m.steps + s ∧
      ((m.runFor s).2 = .unfinished → (m.runFor s).1.steps = m.steps + s) := by
  induction s generalizing m with
  | zero => exact ⟨Nat.le_refl _, Nat.le_refl _, fun _ => rfl⟩
  | succ s ih =>
    obtain ⟨hle, hlt, hnext⟩ := steps_step m
    cases hstep : m.step with
    | mk next stop =>
      rw [hstep] at hle hlt hnext
      cases stop with
      | none =>
        rw [runFor_succ hstep]
        have hsteps : next.steps = m.steps + 1 := hnext rfl
        obtain ⟨hle, hlt, hcut⟩ := ih next
        exact ⟨by omega, by omega, fun h => by rw [hcut h]; omega⟩
      | some stop =>
        rw [runFor_stop hstep]
        exact ⟨hle, by simp only at hlt ⊢; omega, fun h => absurd h (Ending.ofStop_ne_unfinished stop)⟩

/-- A run that has ended has the same end however long it is watched. -/
theorem runFor_eq_of_run (hrun : m.run = some (last, ending)) (hs : (m.runFor s).2 ≠ .unfinished) :
    m.runFor s = (last, ending) :=
  Option.some.inj (((run_eq_some_iff m _).mpr ⟨s, rfl, hs⟩).symm.trans hrun)

/-- The steps counted at the end of a run are the instructions executed: before that many the run is
going on, and with one more it has ended. -/
theorem runFor_steps_of_run (hstart : m.steps = 0) (hrun : m.run = some (last, ending)) :
    m.runFor (last.steps + 1) = (last, ending) ∧ ∀ s < last.steps, (m.runFor s).2 = .unfinished := by
  constructor
  · refine runFor_eq_of_run hrun fun hcut => ?_
    obtain ⟨fuel, hfuel, hended⟩ := (run_eq_some_iff m _).mp hrun
    have hsteps := (steps_runFor m (last.steps + 1)).2.2 hcut
    -- From there the run goes on to its end, and no step counts back.
    have hback : m.runFor (last.steps + 1 + fuel) = (last, ending) := by
      rw [Nat.add_comm, runFor_add_of_ended (by rw [hfuel]; exact hended), hfuel]
    rw [runFor_add_of_cut (Prod.ext rfl hcut)] at hback
    have hle : m.steps + (last.steps + 1) ≤ last.steps := by
      have hle := (steps_runFor (m.runFor (last.steps + 1)).1 fuel).1
      rwa [hback, hsteps] at hle
    omega
  · intro s hs
    by_contra hended
    have hle := (steps_runFor m s).2.1
    rw [runFor_eq_of_run hrun hended, hstart, Nat.zero_add] at hle
    exact Nat.lt_irrefl s (Nat.lt_of_lt_of_le hs hle)

/-- No step changes the limit. -/
theorem limit_step (m : Machine) : m.step.1.limit = m.limit := by
  cases hhalted : m.isHalted with
  | true => rw [step_of_isHalted hhalted]
  | false =>
    obtain ⟨i, -, hstep⟩ := exists_step_eq hhalted
    rw [hstep]
    split
    · rfl
    · have hkept := execute_limited { m with steps := m.steps + 1 } m.limit i
      exact congrArg (fun result => result.1.limit) hkept

/-- No run changes the limit. -/
theorem limit_runFor (m : Machine) (s : Nat) : (m.runFor s).1.limit = m.limit :=
  rel_runFor (R := fun m later => later.limit = m.limit) (fun _ => rfl)
    (fun hfirst hrest => hrest.trans hfirst) limit_step m s

/-- A machine without a limit runs as under a limit that leaves room for the steps taken. -/
theorem runFor_limited (hfree : m.limit = 0) (hroom : (m.runFor s).1.steps ≤ n) :
    (m.limited n).runFor s = ((m.runFor s).1.limited n, (m.runFor s).2) := by
  induction s generalizing m with
  | zero => rfl
  | succ s ih =>
    cases hstep : m.step with
    | mk next stop =>
      have hnext : next.limit = 0 := by
        have hlimit := limit_step m
        rwa [hstep, hfree] at hlimit
      cases stop with
      | none =>
        rw [runFor_succ hstep] at hroom ⊢
        have hfits : m.step.1.steps ≤ n := by
          rw [hstep]
          exact Nat.le_trans (steps_runFor next s).1 hroom
        have hlimited := step_limited hfree hfits
        rw [hstep] at hlimited
        rw [runFor_succ hlimited]
        exact ih hnext hroom
      | some stop =>
        rw [runFor_stop hstep] at hroom ⊢
        have hlimited := step_limited hfree (show m.step.1.steps ≤ n by rw [hstep]; exact hroom)
        rw [hstep] at hlimited
        rw [runFor_stop hlimited]

/-- A run that ends within the limit ends as without one. -/
theorem run_limited (hfree : m.limit = 0) (hrun : m.run = some (last, ending))
    (hroom : last.steps ≤ n) : (m.limited n).run = some (last.limited n, ending) := by
  obtain ⟨fuel, hfuel, hended⟩ := (run_eq_some_iff m _).mp hrun
  refine (run_eq_some_iff _ _).mpr ⟨fuel, ?_, hended⟩
  rw [runFor_limited hfree (by rw [hfuel]; exact hroom), hfuel]

/-- A run that does not end within the limit stops after just the steps allowed, where the machine
without a limit is at that time. -/
theorem exists_run_limited_of_longer (hn : 0 < n) (hfree : m.limit = 0) (hstart : m.steps = 0)
    (hlonger : ∀ last ending, m.run = some (last, ending) → n < last.steps) :
    ∃ cut, m.runFor n = (cut, .unfinished) ∧ cut.steps = n ∧
      (m.limited n).run = some (cut.limited n, .failed (.stepLimit n)) := by
  obtain ⟨-, hle, hsteps⟩ := steps_runFor m n
  rw [hstart, Nat.zero_add] at hle hsteps
  cases hrun : m.runFor n with
  | mk cut ending =>
    rw [hrun] at hle hsteps
    -- A run that had ended would have taken no more steps than allowed.
    have hcut : ending = .unfinished := by
      by_contra hended
      exact absurd (hlonger cut ending ((run_eq_some_iff m _).mpr ⟨n, hrun, hended⟩)) (Nat.not_lt.mpr hle)
    subst hcut
    have hrunning : cut.isHalted = false := by
      refine Bool.eq_false_iff.mpr fun hhalted => ?_
      have hstep := step_of_isHalted hhalted
      have hend := (runFor_add_of_cut hrun 1).trans (runFor_stop hstep 0)
      have hlt := hlonger _ _ ((run_eq_some_iff m _).mpr ⟨n + 1, hend, Ending.ofStop_ne_unfinished .halted⟩)
      exact Nat.lt_irrefl n (Nat.lt_of_lt_of_le hlt hle)
    refine ⟨cut, rfl, hsteps rfl, (run_eq_some_iff _ _).mpr ⟨n + 1, ?_, by simp⟩⟩
    have hlimited : (m.limited n).runFor n = (cut.limited n, .unfinished) := by
      rw [runFor_limited hfree (by rw [hrun]; exact hle), hrun]
    rw [runFor_add_of_cut hlimited 1, runFor_stop (step_limited_of_spent hn (hsteps rfl) hrunning) 0]
    rfl

/-! ## Runs that nothing else can stop -/

/-- A machine that only its program can stop: no step limit, no broken input, no full output. -/
structure Unhindered (m : Machine) : Prop where
  limit_eq : m.limit = 0
  broken_eq : m.input.broken = none
  capacity_eq : m.output.capacity = none

/-- An instruction of an unhindered machine goes on or halts, and the machine stays unhindered. -/
theorem Unhindered.execute (h : m.Unhindered) (i : LinkedInstruction) :
    (m.execute i).1.Unhindered ∧ ((m.execute i).2 = none ∨ (m.execute i).2 = some .halted) := by
  have hsame {next : Machine} (hlimit : next.limit = m.limit)
      (hbroken : next.input.broken = m.input.broken)
      (hcapacity : next.output.capacity = m.output.capacity) : next.Unhindered :=
    ⟨hlimit.trans h.limit_eq, hbroken.trans h.broken_eq, hcapacity.trans h.capacity_eq⟩
  unfold Machine.execute
  cases i.op with
  | moveCell | moveCursor | nop | undefined => exact ⟨hsame rfl rfl rfl, .inl rfl⟩
  | print =>
    unfold writeCell
    have hroom : m.output.capacity.any (· ≤ m.output.bytes.size) = false := by rw [h.capacity_eq]; rfl
    simp only [hroom, Bool.false_eq_true, if_false]
    exact ⟨hsame rfl rfl rfl, .inl trivial⟩
  | read =>
    unfold readCell readPastEnd
    rw [h.broken_eq]
    dsimp only
    split
    · exact ⟨hsame rfl rfl rfl, .inl rfl⟩
    · split
      case h_1 hbroken => cases hbroken
      case h_2 => exact ⟨hsame rfl rfl rfl, .inl rfl⟩
      case h_3 => exact ⟨hsame rfl rfl rfl, .inl rfl⟩
      case h_4 => exact ⟨hsame rfl rfl rfl, .inr rfl⟩
  | loopEnter | loopExit =>
    dsimp only
    split <;> exact ⟨hsame rfl rfl rfl, .inl rfl⟩

/-- A step of an unhindered machine goes on or halts, and the machine stays unhindered. -/
theorem Unhindered.step (h : m.Unhindered) :
    m.step.1.Unhindered ∧ (m.step.2 = none ∨ m.step.2 = some .halted) := by
  cases hhalted : m.isHalted with
  | true =>
    rw [step_of_isHalted hhalted]
    exact ⟨⟨h.limit_eq, h.broken_eq, h.capacity_eq⟩, .inr rfl⟩
  | false =>
    obtain ⟨i, -, hstep⟩ := exists_step_eq hhalted
    rw [hstep, if_neg (by simp [isSpent, h.limit_eq])]
    have hcounted : { m with steps := m.steps + 1 }.Unhindered :=
      ⟨h.limit_eq, h.broken_eq, h.capacity_eq⟩
    exact hcounted.execute i

/-- The run of an unhindered machine ends only by halting. -/
theorem Unhindered.ending_eq (h : m.Unhindered) (hrun : m.run = some (last, ending)) :
    ending = .halted := by
  obtain ⟨fuel, hfuel, hended⟩ := (run_eq_some_iff m _).mp hrun
  clear hrun
  induction fuel generalizing m with
  | zero => exact absurd (Prod.mk.inj hfuel).2.symm hended
  | succ fuel ih =>
    obtain ⟨hnext, hstop⟩ := h.step
    cases hstep : m.step with
    | mk next stop =>
      rw [hstep] at hnext hstop
      rcases hstop with rfl | rfl
      · rw [runFor_succ hstep] at hfuel
        exact ih hnext hfuel
      · rw [runFor_stop hstep] at hfuel
        exact (Prod.mk.inj hfuel).2.symm

/-! ## Loaded programs -/

/-- Loading does not depend on the limit. -/
theorem load_limited {program : List Instruction} {options : MachineOptions} {limit : Nat}
    (hload : load program { options with limit } = .ok m) (n : Nat) :
    load program { options with limit := n } = .ok (m.limited n) := by
  obtain ⟨code, hlink, rfl⟩ := exists_of_map_eq_ok hload
  rw [load, hlink]
  rfl

/-- A limit only cuts a run short. Where the run of a program without a limit ends after at most
the steps allowed, the run with the limit ends in the same way and in the same state. Where it does
not, the run with the limit stops because of it after just the steps allowed, in the state that the
machine without a limit has then. So a program that halts under a limit halts in the same state
under every greater limit and without any. The steps counted at the end are the instructions
executed, and if neither the input nor the output fails, a run without a limit ends only by
halting. -/
theorem limit_only_truncates (program : List Instruction) (options : MachineOptions) (n : Nat)
    (hn : 0 < n) (m : Machine) (hload : load program { options with limit := 0 } = .ok m) :
    ∃ capped, load program { options with limit := n } = .ok capped ∧
      (∀ last ending, m.run = some (last, ending) → last.steps ≤ n →
        capped.run = some (last.limited n, ending)) ∧
      ((∀ last ending, m.run = some (last, ending) → n < last.steps) →
        ∃ cut, m.runFor n = (cut, .unfinished) ∧ cut.steps = n ∧
          capped.run = some (cut.limited n, .failed (.stepLimit n))) ∧
      (∀ last, capped.run = some (last, .halted) → ∀ more, n ≤ more ∨ more = 0 →
        ∃ freer, load program { options with limit := more } = .ok freer ∧
          freer.run = some (last.limited more, .halted)) ∧
      (∀ last ending, m.run = some (last, ending) →
        m.runFor (last.steps + 1) = (last, ending) ∧
          ∀ s < last.steps, (m.runFor s).2 = .unfinished) ∧
      (options.input.broken = none → options.output.capacity = none →
        ∀ last ending, m.run = some (last, ending) → ending = .halted) := by
  have hstart : m.limit = 0 ∧ m.steps = 0 ∧ m.input = options.input ∧ m.output = options.output := by
    obtain ⟨code, -, rfl⟩ := exists_of_map_eq_ok hload
    exact ⟨rfl, rfl, rfl, rfl⟩
  obtain ⟨hfree, hsteps, hinput, houtput⟩ := hstart
  refine ⟨m.limited n, load_limited hload n, fun last ending hrun hroom => run_limited hfree hrun hroom,
    fun hlonger => exists_run_limited_of_longer hn hfree hsteps hlonger, ?_,
    fun last ending hrun => runFor_steps_of_run hsteps hrun, ?_⟩
  · intro last hlast more hmore
    refine ⟨m.limited more, load_limited hload more, ?_⟩
    -- A run that is longer than the limit does not halt under it.
    have hshort : ∃ first ending, m.run = some (first, ending) ∧ first.steps ≤ n := by
      by_contra hnone
      obtain ⟨cut, -, -, hcut⟩ := exists_run_limited_of_longer hn hfree hsteps fun first ending hfirst =>
        Nat.lt_of_not_le fun hle => hnone ⟨first, ending, hfirst, hle⟩
      cases hlast.symm.trans hcut
    obtain ⟨first, ending, hfirst, hle⟩ := hshort
    obtain ⟨rfl, rfl⟩ :=
      Prod.mk.inj (Option.some.inj (hlast.symm.trans (run_limited hfree hfirst hle)))
    change (m.limited more).run = some (first.limited more, .halted)
    rcases hmore with hmore | rfl
    · exact run_limited hfree hfirst (Nat.le_trans hle hmore)
    · obtain ⟨fuel, hfuel, -⟩ := (run_eq_some_iff m _).mp hfirst
      have hlimit := limit_runFor m fuel
      rw [hfuel, hfree] at hlimit
      rw [show m.limited 0 = m by rw [← hfree]; rfl, hfirst, ← hlimit]
      rfl
  · intro hbroken hcapacity last ending hrun
    exact Unhindered.ending_eq ⟨hfree, hinput ▸ hbroken, houtput ▸ hcapacity⟩ hrun

/-- Writing back one byte of input takes six steps, and the sixth finds the input used up. That is
within a limit of six, and a limit of five cuts it off in front of that step. -/
theorem limit_only_truncates_echo :
    ∃ m six five last cut,
      load [.moveCell 1, .loopEnter, .read, .print, .loopExit] { input := { bytes := [7] } } = .ok m ∧
      load [.moveCell 1, .loopEnter, .read, .print, .loopExit]
        { input := { bytes := [7] }, limit := 6 } = .ok six ∧
      load [.moveCell 1, .loopEnter, .read, .print, .loopExit]
        { input := { bytes := [7] }, limit := 5 } = .ok five ∧
      six.run = some (last, .halted) ∧ last.steps = 6 ∧ last.output.bytes.toList = [7] ∧
      five.run = some (cut, .failed (.stepLimit 5)) ∧ cut.steps = 5 := by
  obtain ⟨m, hload, hended⟩ : ∃ m,
      load [.moveCell 1, .loopEnter, .read, .print, .loopExit] { input := { bytes := [7] } } = .ok m ∧
        ((m.runFor 6).1.steps, (m.runFor 6).1.output.bytes.toList, (m.runFor 6).2) =
          (6, [7], .halted) :=
    ⟨_, rfl, by decide +kernel⟩
  simp only [Prod.mk.injEq] at hended
  obtain ⟨hsteps, houtput, hended⟩ := hended
  have hrun : m.run = some ((m.runFor 6).1, .halted) :=
    (run_eq_some_iff m _).mpr ⟨6, by rw [← hended], by simp⟩
  obtain ⟨six, hsix, hwithin, -⟩ := limit_only_truncates _ { input := { bytes := [7] } } 6 (by decide) m hload
  obtain ⟨five, hfive, -, hbeyond, -⟩ :=
    limit_only_truncates _ { input := { bytes := [7] } } 5 (by decide) m hload
  obtain ⟨cut, -, hcut, hstopped⟩ := hbeyond fun last ending hlast => by
    obtain ⟨rfl, -⟩ := Prod.mk.inj (Option.some.inj (hrun.symm.trans hlast))
    rw [hsteps]
    decide
  exact ⟨m, six, five, _, _, hload, hsix, hfive, hwithin _ _ hrun (Nat.le_of_eq hsteps), hsteps, houtput,
    hstopped, hcut⟩

end Tapestry.Machine

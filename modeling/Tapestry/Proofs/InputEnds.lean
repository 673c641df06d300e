import Tapestry.Proofs.StepLimits

/-!
# The end of the input

What a machine is told to do at the end of its input, and whether more input stands behind that end,
matters only from the first read on that finds nothing. Up to there two machines that differ in
nothing else take the same steps, with the same output, tape, cursor and place in the program, and
have taken the same bytes from their input.

A machine that stops at such a read has then written only what any other machine has written too.
-/

namespace Tapestry

/-- An input with another one behind it, which says how reading ends. -/
def Input.followedBy (input more : Input) : Input :=
  { bytes := input.bytes ++ more.bytes, broken := more.broken }

/-- An input with nothing behind it. -/
theorem Input.followedBy_nothing (input : Input) :
    input.followedBy { bytes := [], broken := input.broken } = input := by
  rw [followedBy, List.append_nil]

namespace Machine

/-- Whether the next step is a read that finds nothing left. -/
def starves (m : Machine) : Bool :=
  !m.isHalted && !m.isSpent && m.program[m.pc]?.any (fun i => decide (i.op = .read)) &&
    m.input.bytes.isEmpty

/-- None of the first `s` steps of a machine is a read that finds nothing left. -/
def FedFor (m : Machine) (s : Nat) : Prop :=
  ∀ t < s, ∀ now, m.runFor t = (now, .unfinished) → now.starves = false

/-- The same machine under another policy and with more input behind its own. -/
def supplied (m : Machine) (policy : EofPolicy) (more : Input) : Machine :=
  { m with policy, input := m.input.followedBy more }

variable {m next last : Machine} {ending : Ending} {policy : EofPolicy} {more : Input} {s : Nat}

/-! ## Steps that find what they read -/

/-- An instruction that finds what it reads sees neither the policy nor the input behind. -/
theorem execute_supplied {i : LinkedInstruction} (h : i.op = .read → m.input.bytes ≠ []) :
    (m.supplied policy more).execute i =
      ((m.execute i).1.supplied policy more, (m.execute i).2) := by
  by_cases hread : i.op = .read
  · cases hbytes : m.input.bytes with
    | nil => exact absurd hbytes (h hread)
    | cons byte rest =>
      simp only [execute, hread, readCell, supplied, Input.followedBy, hbytes, List.cons_append]
      rfl
  · have hkept := execute_of_ne_read hread m m.policy m.limit m.input
    refine (execute_of_ne_read hread m policy m.limit (m.input.followedBy more)).trans ?_
    rw [show m.execute i = _ from hkept]
    rfl

/-- A machine that does not starve steps in the same way with other supplies. -/
theorem step_supplied (policy : EofPolicy) (more : Input) (h : m.starves = false) :
    (m.supplied policy more).step = (m.step.1.supplied policy more, m.step.2) := by
  cases hhalted : m.isHalted with
  | true =>
    rw [step_of_isHalted hhalted,
      step_of_isHalted (show (m.supplied policy more).isHalted = true from hhalted)]
    rfl
  | false =>
    obtain ⟨i, hat, hstep⟩ := exists_step_eq hhalted
    obtain ⟨j, hat', hstep'⟩ :=
      exists_step_eq (show (m.supplied policy more).isHalted = false from hhalted)
    obtain rfl : i = j := Option.some.inj (hat.symm.trans hat')
    rw [hstep', hstep, show (m.supplied policy more).isSpent = m.isSpent from rfl]
    cases hspent : m.isSpent with
    | true => rfl
    | false =>
      have hfound : i.op = .read → m.input.bytes ≠ [] := by
        intro hread hempty
        simp [starves, hhalted, hspent, hat, hread, hempty] at h
      exact execute_supplied (m := { m with steps := m.steps + 1 }) hfound

/-- What a machine does in its first steps is known from its first step and what follows. -/
theorem FedFor.of_step (h : m.FedFor (s + 1)) (hstep : m.step = (next, none)) : next.FedFor s := by
  intro t ht now hnow
  exact h (t + 1) (Nat.succ_lt_succ ht) now ((runFor_succ hstep t).trans hnow)

/-- A machine that does not starve runs in the same way with other supplies. -/
theorem runFor_supplied (policy : EofPolicy) (more : Input) (h : m.FedFor s) :
    (m.supplied policy more).runFor s = ((m.runFor s).1.supplied policy more, (m.runFor s).2) := by
  induction s generalizing m with
  | zero => rfl
  | succ s ih =>
    have hsupplied := step_supplied policy more (h 0 (Nat.succ_pos s) m rfl)
    cases hstep : m.step with
    | mk next stop =>
      rw [hstep] at hsupplied
      cases stop with
      | none =>
        rw [runFor_succ hstep, runFor_succ hsupplied]
        exact ih (h.of_step hstep)
      | some stop => rw [runFor_stop hstep, runFor_stop hsupplied]

/-- A run that ends without starving ends in the same way with other supplies. -/
theorem run_supplied (policy : EofPolicy) (more : Input) (hfed : ∀ s, m.FedFor s)
    (hrun : m.run = some (last, ending)) :
    (m.supplied policy more).run = some (last.supplied policy more, ending) := by
  obtain ⟨fuel, hfuel, hended⟩ := (run_eq_some_iff m _).mp hrun
  refine (run_eq_some_iff _ _).mpr ⟨fuel, ?_, hended⟩
  rw [runFor_supplied policy more (hfed fuel), hfuel]

/-! ## Written and read -/

/-- A machine on its way keeps its policy, has written only more and has only less to read. -/
structure Passes (m later : Machine) : Prop where
  policy_eq : later.policy = m.policy
  output : m.output.bytes.toList <+: later.output.bytes.toList
  input : later.input.bytes <:+ m.input.bytes

/-- A machine whose policy, input and output stay is on its way. -/
theorem Passes.of_eq (hpolicy : next.policy = m.policy) (houtput : next.output = m.output)
    (hinput : next.input = m.input) : m.Passes next :=
  ⟨hpolicy, houtput ▸ List.prefix_refl _, hinput ▸ List.suffix_refl _⟩

/-- A machine that does nothing is on its way. -/
theorem Passes.refl (m : Machine) : m.Passes m := .of_eq rfl rfl rfl

/-- A machine goes on its way in turn. -/
theorem Passes.trans {later : Machine} (h : m.Passes next) (h' : next.Passes later) : m.Passes later :=
  ⟨h'.policy_eq.trans h.policy_eq, h.output.trans h'.output, h'.input.trans h.input⟩

/-- An instruction writes or reads at most one byte. -/
theorem execute_passes (m : Machine) (i : LinkedInstruction) : m.Passes (m.execute i).1 := by
  unfold execute
  cases i.op with
  | moveCell | moveCursor | nop | undefined => exact .of_eq rfl rfl rfl
  | print =>
    unfold writeCell
    dsimp only
    split
    · exact .refl m
    · exact ⟨rfl, by simp [advance], List.suffix_refl _⟩
  | read =>
    unfold readCell readPastEnd
    dsimp only
    split
    case h_1 byte rest hbytes =>
      exact ⟨rfl, List.prefix_refl _, hbytes ▸ List.suffix_cons byte rest⟩
    case h_2 => split <;> exact .of_eq rfl rfl rfl
  | loopEnter | loopExit =>
    dsimp only
    split <;> exact .of_eq rfl rfl rfl

/-- A step leads a machine on its way. -/
theorem step_passes (m : Machine) : m.Passes m.step.1 := by
  cases hhalted : m.isHalted with
  | true =>
    rw [step_of_isHalted hhalted]
    exact .of_eq rfl rfl rfl
  | false =>
    obtain ⟨i, -, hstep⟩ := exists_step_eq hhalted
    rw [hstep]
    split
    · exact .refl m
    · have hcounted : m.Passes { m with steps := m.steps + 1 } := .of_eq rfl rfl rfl
      exact hcounted.trans (execute_passes _ i)

/-- A bounded run leads a machine on its way. -/
theorem runFor_passes (m : Machine) (s : Nat) : m.Passes (m.runFor s).1 :=
  rel_runFor Passes.refl Passes.trans step_passes m s

/-- A longer run passes what a shorter one comes to. -/
theorem runFor_passes_of_le (m : Machine) {t : Nat} (h : s ≤ t) :
    (m.runFor s).1.Passes (m.runFor t).1 := by
  obtain ⟨extra, rfl⟩ := Nat.exists_eq_add_of_le h
  by_cases hended : (m.runFor s).2 = .unfinished
  · rw [runFor_add_of_cut (Prod.ext rfl hended)]
    exact runFor_passes _ extra
  · rw [runFor_add_of_ended hended]
    exact .refl _

/-! ## Machines that stop at the end of their input -/

/-- A machine starves in its first steps, for the first time at one of them, or it does not. -/
theorem fedFor_or_starves (m : Machine) (s : Nat) :
    m.FedFor s ∨ ∃ r < s, m.FedFor r ∧ ∃ now, m.runFor r = (now, .unfinished) ∧ now.starves = true := by
  induction s with
  | zero => exact .inl fun t ht => absurd ht (Nat.not_lt_zero t)
  | succ s ih =>
    rcases ih with hfed | ⟨r, hr, hstarves⟩
    · by_cases hnow : ∃ now, m.runFor s = (now, .unfinished) ∧ now.starves = true
      · exact .inr ⟨s, Nat.lt_succ_self s, hfed, hnow⟩
      · refine .inl fun t ht now hrun => ?_
        rcases Nat.lt_succ_iff_lt_or_eq.mp ht with ht | rfl
        · exact hfed t ht now hrun
        · exact Bool.eq_false_iff.mpr fun hstarves => hnow ⟨now, hrun, hstarves⟩
    · exact .inr ⟨r, Nat.lt_succ_of_lt hr, hstarves⟩

/-- A machine that is to halt at the end of its input stops there, and writes nothing. -/
theorem step_of_starves (h : m.starves = true) (hpolicy : m.policy = .halt) :
    ∃ last stop, m.step = (last, some stop) ∧ last.output = m.output := by
  simp only [starves, Bool.and_eq_true, Bool.not_eq_true'] at h
  obtain ⟨⟨⟨hhalted, hspent⟩, hread⟩, hempty⟩ := h
  obtain ⟨i, hat, hstep⟩ := exists_step_eq hhalted
  have hread : i.op = .read := by simpa [hat] using hread
  rw [hspent, if_neg Bool.false_ne_true] at hstep
  simp only [execute, hread, readCell, List.isEmpty_iff.mp hempty, readPastEnd, hpolicy] at hstep
  cases hbroken : m.input.broken with
  | some reason =>
    rw [hbroken] at hstep
    exact ⟨_, _, hstep, rfl⟩
  | none =>
    rw [hbroken] at hstep
    exact ⟨_, _, hstep, rfl⟩

/-- What a machine has written that is to halt at the end of its input, it has written with other
supplies too. -/
theorem output_prefix_supplied (policy : EofPolicy) (more : Input) (hpolicy : m.policy = .halt)
    {t : Nat} (hst : s ≤ t) :
    (m.runFor s).1.output.bytes.toList <+:
      ((m.supplied policy more).runFor t).1.output.bytes.toList := by
  -- Up to a step at which the machine has not starved, both have written the same.
  have hsame (r : Nat) (hrt : r ≤ t) (hfed : m.FedFor r) : (m.runFor r).1.output.bytes.toList <+:
      ((m.supplied policy more).runFor t).1.output.bytes.toList := by
    have hpasses := (runFor_passes_of_le (m.supplied policy more) hrt).output
    rwa [runFor_supplied policy more hfed] at hpasses
  rcases fedFor_or_starves m s with hfed | ⟨r, hrs, hfed, now, hnow, hstarves⟩
  · exact hsame s hst hfed
  · have hkept := (runFor_passes m r).policy_eq
    rw [hnow, hpolicy] at hkept
    obtain ⟨last, stop, hstep, houtput⟩ := step_of_starves hstarves hkept
    have hstopped : m.runFor (r + 1) = (last, .ofStop stop) :=
      (runFor_add_of_cut hnow 1).trans (runFor_stop hstep 0)
    obtain ⟨extra, rfl⟩ := Nat.exists_eq_add_of_le (Nat.succ_le_of_lt hrs)
    rw [runFor_add_of_ended (by rw [hstopped]; exact Ending.ofStop_ne_unfinished stop), hstopped, houtput]
    have hbefore := hsame r (Nat.le_trans (Nat.le_of_lt hrs) hst) hfed
    rwa [hnow] at hbefore

/-! ## Loaded programs -/

/-- A program is loaded whatever its supplies are. -/
theorem load_supplied {program : List Instruction} {options : MachineOptions}
    (hload : load program options = .ok m) (policy : EofPolicy) (more : Input) :
    load program { options with policy, input := options.input.followedBy more } =
      .ok (m.supplied policy more) := by
  obtain ⟨code, hlink, rfl⟩ := exists_of_map_eq_ok hload
  rw [load, hlink]
  rfl

/-- Policies for the end of the input differ only from there on. As long as no read of a machine
finds nothing left, it goes on or stops in the same way under every policy and with more input
behind its own: it differs then only in its policy and in what stands behind the input it has left,
and the bytes it has taken are the same. So a run that ends without such a read has the same end.
And whatever a machine that is to halt at the end of its input has written after some steps, it has
written after those and after more steps under every other policy; so if both runs end, the one has
written a first part of what the other has. -/
theorem policies_differ_after_end (program : List Instruction) (options : MachineOptions)
    (m : Machine) (hload : load program options = .ok m) :
    (∀ policy more, ∃ other,
      load program { options with policy, input := options.input.followedBy more } = .ok other ∧
      (∀ s, m.FedFor s →
        other.runFor s = ((m.runFor s).1.supplied policy more, (m.runFor s).2) ∧
        ∃ taken, options.input.bytes = taken ++ (m.runFor s).1.input.bytes ∧
          options.input.bytes ++ more.bytes = taken ++ (other.runFor s).1.input.bytes) ∧
      ∀ last ending, (∀ s, m.FedFor s) → m.run = some (last, ending) →
        other.run = some (last.supplied policy more, ending)) ∧
    (options.policy = .halt → ∀ policy, ∃ other,
      load program { options with policy } = .ok other ∧
      (∀ s t, s ≤ t →
        (m.runFor s).1.output.bytes.toList <+: (other.runFor t).1.output.bytes.toList) ∧
      ∀ last ending last' ending', m.run = some (last, ending) → other.run = some (last', ending') →
        last.output.bytes.toList <+: last'.output.bytes.toList) := by
  have hstart : m.policy = options.policy ∧ m.input = options.input := by
    obtain ⟨code, -, rfl⟩ := exists_of_map_eq_ok hload
    exact ⟨rfl, rfl⟩
  obtain ⟨hpolicy, hinput⟩ := hstart
  constructor
  · intro policy more
    refine ⟨m.supplied policy more, load_supplied hload policy more, fun s hfed => ?_,
      fun last ending hfed hrun => run_supplied policy more hfed hrun⟩
    have hrun := runFor_supplied policy more hfed
    obtain ⟨taken, htaken⟩ := (runFor_passes m s).input
    rw [hinput] at htaken
    refine ⟨hrun, taken, htaken.symm, ?_⟩
    rw [hrun, ← htaken, List.append_assoc]
    rfl
  · intro hhalt policy
    have hother := load_supplied hload policy { bytes := [], broken := options.input.broken }
    rw [Input.followedBy_nothing] at hother
    have hprefix (s t : Nat) (hst : s ≤ t) := output_prefix_supplied policy
      { bytes := [], broken := options.input.broken } (hpolicy.trans hhalt) hst
    refine ⟨_, hother, hprefix, fun last ending last' ending' hlast hlast' => ?_⟩
    obtain ⟨fuel, hfuel, hended⟩ := (run_eq_some_iff _ _).mp hlast
    obtain ⟨fuel', hfuel', hended'⟩ := (run_eq_some_iff _ _).mp hlast'
    have hboth := hprefix fuel (fuel' + fuel) (Nat.le_add_left fuel fuel')
    rwa [hfuel, runFor_add_of_ended (by rw [hfuel']; exact hended'), hfuel'] at hboth

/-- Of two bytes asked for one is there. Up to the second read the machine that halts and the one
that stores zero are alike, also if a second byte stands behind the first; then the one has written
one byte and the other two. -/
theorem policies_differ_after_end_second :
    ∃ m longer zero last last',
      load [.read, .print, .read, .print] { input := { bytes := [7] } } = .ok m ∧
      m.FedFor 2 ∧ ¬ m.FedFor 3 ∧
      load [.read, .print, .read, .print] { input := { bytes := [7, 9] }, policy := .zero } =
        .ok longer ∧
      longer.runFor 2 = ((m.runFor 2).1.supplied .zero { bytes := [9] }, .unfinished) ∧
      load [.read, .print, .read, .print] { input := { bytes := [7] }, policy := .zero } = .ok zero ∧
      m.run = some (last, .halted) ∧ zero.run = some (last', .halted) ∧
      last.output.bytes.toList <+: last'.output.bytes.toList ∧
      last.output.bytes.toList = [7] ∧ last'.output.bytes.toList = [7, 0] := by
  obtain ⟨m, hload, hends, hstarves⟩ : ∃ m,
      load [.read, .print, .read, .print] { input := { bytes := [7] } } = .ok m ∧
        ((m.runFor 2).2, (m.runFor 3).2, (m.runFor 3).1.output.bytes.toList) =
          (.unfinished, .halted, [7]) ∧
        ((m.runFor 0).1.starves, (m.runFor 1).1.starves, (m.runFor 2).1.starves) =
          (false, false, true) :=
    ⟨_, rfl, by decide +kernel, by decide +kernel⟩
  obtain ⟨zero, hzero, hwritten⟩ : ∃ zero,
      load [.read, .print, .read, .print] { input := { bytes := [7] }, policy := .zero } = .ok zero ∧
        ((zero.runFor 5).2, (zero.runFor 5).1.output.bytes.toList) = (.halted, [7, 0]) :=
    ⟨_, rfl, by decide +kernel⟩
  simp only [Prod.mk.injEq] at hends hstarves hwritten
  have hfed : m.FedFor 2 := by
    intro t ht now hnow
    have hcases : t = 0 ∨ t = 1 := by omega
    rcases hcases with rfl | rfl
    · rw [hnow] at hstarves
      exact hstarves.1
    · rw [hnow] at hstarves
      exact hstarves.2.1
  have hunfed : ¬ m.FedFor 3 := by
    intro hfed
    have hstarved := hfed 2 (by decide) _ (Prod.ext rfl hends.1)
    rw [hstarves.2.2] at hstarved
    cases hstarved
  have hrun : m.run = some ((m.runFor 3).1, .halted) :=
    (run_eq_some_iff m _).mpr ⟨3, by rw [← hends.2.1], by simp⟩
  have hrun' : zero.run = some ((zero.runFor 5).1, .halted) :=
    (run_eq_some_iff zero _).mpr ⟨5, by rw [← hwritten.1], by simp⟩
  obtain ⟨halike, hshorter⟩ :=
    policies_differ_after_end _ { input := { bytes := [7] } } m hload
  obtain ⟨longer, hlonger, hsteps, -⟩ := halike .zero { bytes := [9] }
  obtain ⟨other, hother, -, hprefix⟩ := hshorter rfl .zero
  obtain rfl : zero = other := Except.ok.inj (hzero.symm.trans hother)
  have hsecond := (hsteps 2 hfed).1
  rw [hends.1] at hsecond
  exact ⟨m, longer, zero, _, _, hload, hfed, hunfed, hlonger, hsecond, hzero, hrun, hrun',
    hprefix _ _ _ _ hrun hrun', hends.2.2, hwritten.2⟩

end Machine

end Tapestry

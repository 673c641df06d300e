import Tapestry.Machine
import Tapestry.Proofs.LoopSemantics
import Tapestry.Proofs.TapeCells

/-!
# The machine runs trees of loops

A machine that follows indexes and links shows the same as the tree of loops its program is
written from: it halts in exactly the configurations that runs of the tree finish or starve
in, and what it passes through are the cut runs of the tree.

From the tree to the machine the proof follows the derivation of a run. Back from the machine
it is an induction on the number of steps: every turn of a loop takes at least one.
-/

namespace Tapestry

namespace Machine

/-! ## Runs and bounded runs -/

/-- A step that is taken uses up one of the steps allowed. -/
theorem runFor_succ {m next : Machine} (h : m.step = (next, none)) (fuel : Nat) :
    m.runFor (fuel + 1) = next.runFor fuel := by
  rw [runFor, h]

/-- A step that stops ends the run. -/
theorem runFor_stop {m last : Machine} {stop : Stop} (h : m.step = (last, some stop)) (fuel : Nat) :
    m.runFor (fuel + 1) = (last, .ofStop stop) := by
  rw [runFor, h]

/-- A stop never looks like a run that was cut off. -/
theorem Ending.ofStop_ne_unfinished (stop : Stop) : Ending.ofStop stop ≠ .unfinished := by
  cases stop <;> simp [Ending.ofStop]

/-- A run ends as some bounded run does that is not cut off. -/
theorem run_eq_some_iff (m : Machine) (result : Machine × Ending) :
    m.run = some result ↔ ∃ fuel, m.runFor fuel = result ∧ result.2 ≠ .unfinished := by
  constructor
  · intro h
    refine run.partial_correctness
      (fun m result => ∃ fuel, m.runFor fuel = result ∧ result.2 ≠ .unfinished) ?_ m result h
    intro run ih m result hresult
    split at hresult
    · rename_i next hstep
      obtain ⟨fuel, hrun, hfinished⟩ := ih next result hresult
      exact ⟨fuel + 1, by rw [runFor_succ hstep, hrun], hfinished⟩
    · rename_i last stop hstep
      cases hresult
      exact ⟨1, runFor_stop hstep 0, Ending.ofStop_ne_unfinished stop⟩
  · rintro ⟨fuel, hrun, hfinished⟩
    induction fuel generalizing m with
    | zero =>
      subst hrun
      exact absurd rfl hfinished
    | succ fuel ih =>
      rw [run]
      rw [runFor] at hrun
      split at hrun
      · rename_i next hstep
        exact ih next hrun
      · rename_i last stop hstep
        rw [hrun]

/-! ## What a machine shows -/

/-- What can be seen of a machine. -/
def configuration (m : Machine) : Configuration :=
  { output := m.output.bytes.toList, cells := m.tape.get, cursor := m.cursor, input := m.input.bytes }

/-- A machine at index `pc` of a linked program that shows `s`, with nothing that could stop it
but the program: no step limit, no broken input, no full output. -/
structure Shows (m : Machine) (code : Array LinkedInstruction) (policy : EofPolicy) (pc : Nat)
    (s : Configuration) : Prop where
  program_eq : m.program = code
  policy_eq : m.policy = policy
  limit_eq : m.limit = 0
  broken_eq : m.input.broken = none
  capacity_eq : m.output.capacity = none
  stopped_eq : m.stopped = false
  pc_eq : m.pc = pc
  configuration_eq : m.configuration = s

section Steps

variable {m : Machine} {code : Array LinkedInstruction} {policy : EofPolicy} {pc : Nat}
  {s : Configuration}

/-- Behind the last instruction a machine halts and shows what it showed. -/
theorem Shows.step_end (h : m.Shows code policy pc s) (hend : code[pc]? = none) :
    ∃ last, m.step = (last, some .halted) ∧ last.configuration = s := by
  have hfetch : m.program[m.pc]? = none := by rw [h.program_eq, h.pc_eq, hend]
  exact ⟨{ m with stopped := true }, by simp [step, h.stopped_eq, hfetch], h.configuration_eq⟩

/-- A machine executes the instruction it is at, with the step counted. -/
theorem Shows.exists_step_eq (h : m.Shows code policy pc s) (i : LinkedInstruction)
    (hi : code[pc]? = some i) :
    ∃ m' : Machine, m.step = m'.execute i ∧ m'.Shows code policy pc s := by
  have hfetch : m.program[m.pc]? = some i := by rw [h.program_eq, h.pc_eq, hi]
  refine ⟨{ m with steps := m.steps + 1 }, ?_, { h with configuration_eq := h.configuration_eq }⟩
  simp [step, h.stopped_eq, hfetch, h.limit_eq]

/-- Going elsewhere in the program shows nothing. -/
theorem Shows.goTo (h : m.Shows code policy pc s) (place : Nat) :
    { m with pc := place }.Shows code policy place s :=
  { h with pc_eq := rfl, configuration_eq := h.configuration_eq }

/-- Advancing shows the same one place further on. -/
theorem Shows.advance (h : m.Shows code policy pc s) :
    m.advance.Shows code policy (pc + 1) s := by
  obtain rfl := h.pc_eq
  exact h.goTo (m.pc + 1)

/-- Jumping shows the same behind another place. -/
theorem Shows.jump (h : m.Shows code policy pc s) (place : Nat) :
    (m.jump place).Shows code policy (place + 1) s := h.goTo (place + 1)

/-- The cell under the cursor is the one shown. -/
theorem Shows.cell_eq (h : m.Shows code policy pc s) : m.cell = s.cell := by
  rw [← h.configuration_eq]
  rfl

/-- Changing the current cell shows as a point update. -/
theorem Shows.modify (h : m.Shows code policy pc s) (change : UInt8 → UInt8) :
    { m with tape := m.tape.modify m.cursor change }.Shows code policy pc
      (s.setCell (change s.cell)) := by
  refine { h with configuration_eq := ?_ }
  rw [← h.configuration_eq]
  simp only [configuration, Configuration.setCell, Configuration.cell, Tape.get_modify]

/-! ## Steps of a machine -/

/-- An opening bracket leads into the loop, or behind it if the cell is zero. -/
theorem Shows.step_enter (h : m.Shows code policy pc s) (enter : EnterInstruction)
    (last : Nat) (hi : code[pc]? = some (enter.val.linkedTo last)) :
    ∃ m', m.step = (m', none) ∧
      m'.Shows code policy (if s.cell = 0 then last + 1 else pc + 1) s := by
  obtain ⟨m', hstep, h'⟩ := h.exists_step_eq _ hi
  rw [hstep]
  by_cases hzero : s.cell = 0
  · refine ⟨m'.jump last, by simp [execute, Instruction.linkedTo, enter.property, h'.cell_eq, hzero], ?_⟩
    rw [if_pos hzero]
    exact h'.jump last
  · refine ⟨m'.advance, by simp [execute, Instruction.linkedTo, enter.property, h'.cell_eq, hzero], ?_⟩
    rw [if_neg hzero]
    exact h'.advance

/-- A closing bracket leads behind the loop, or back into it if the cell is not zero. -/
theorem Shows.step_exit (h : m.Shows code policy pc s) (exit : ExitInstruction)
    (first : Nat) (hi : code[pc]? = some (exit.val.linkedTo first)) :
    ∃ m', m.step = (m', none) ∧
      m'.Shows code policy (if s.cell = 0 then pc + 1 else first + 1) s := by
  obtain ⟨m', hstep, h'⟩ := h.exists_step_eq _ hi
  rw [hstep]
  by_cases hzero : s.cell = 0
  · refine ⟨m'.advance, by simp [execute, Instruction.linkedTo, exit.property, h'.cell_eq, hzero], ?_⟩
    rw [if_pos hzero]
    exact h'.advance
  · refine ⟨m'.jump first, by simp [execute, Instruction.linkedTo, exit.property, h'.cell_eq, hzero], ?_⟩
    rw [if_neg hzero]
    exact h'.jump first

/-- Moving the cursor shows as that. -/
theorem Shows.moveCursor (h : m.Shows code policy pc s) (delta : Int64) :
    { m with cursor := m.cursor + delta }.Shows code policy pc
      { s with cursor := s.cursor + delta } := by
  refine { h with configuration_eq := ?_ }
  rw [← h.configuration_eq]
  rfl

/-- Output without a capacity takes the current cell. -/
theorem Shows.writeCell (h : m.Shows code policy pc s) :
    ∃ m', m.writeCell = (m', none) ∧
      m'.Shows code policy (pc + 1) { s with output := s.output ++ [s.cell] } := by
  let written : Machine := { m with output := { m.output with bytes := m.output.bytes.push m.cell } }
  have hwritten : written.Shows code policy pc { s with output := s.output ++ [s.cell] } := by
    refine { h with configuration_eq := ?_ }
    rw [← h.configuration_eq]
    simp only [written, configuration, Array.toList_push]
    rfl
  exact ⟨written.advance, by simp [Machine.writeCell, h.capacity_eq, written], hwritten.advance⟩

/-- Reading takes a byte of input, or does as the policy says. -/
theorem Shows.readCell (h : m.Shows code policy pc s) :
    match s.takeByte policy with
    | some next => ∃ m', m.readCell = (m', none) ∧ m'.Shows code policy (pc + 1) next
    | none => ∃ last, m.readCell = (last, some .halted) ∧ last.configuration = s := by
  have hinput : m.input.bytes = s.input := by rw [← h.configuration_eq]; rfl
  cases hbytes : s.input with
  | cons byte rest =>
    rw [hbytes] at hinput
    have hread := h.modify fun _ => byte
    have htaken : { m with
        tape := m.tape.modify m.cursor fun _ => byte
        input := { m.input with bytes := rest } }.Shows code policy pc
          { s.setCell byte with input := rest } :=
      { hread with
        broken_eq := h.broken_eq
        configuration_eq := by rw [← hread.configuration_eq]; rfl }
    simp only [Configuration.takeByte, hbytes]
    exact ⟨_, by rw [Machine.readCell, hinput], htaken.advance⟩
  | nil =>
    rw [hbytes] at hinput
    have hpast : m.readCell = m.readPastEnd := by rw [Machine.readCell, hinput]
    have hbroken := h.broken_eq
    have hsame := h.policy_eq
    simp only [Configuration.takeByte, hbytes, hpast, readPastEnd]
    cases policy with
    | zero =>
      refine ⟨{ m with tape := m.tape.set m.cursor 0 }.advance, ?_, (h.modify _).advance⟩
      split <;> simp_all
    | keep =>
      refine ⟨m.advance, ?_, h.advance⟩
      split <;> simp_all
    | halt | unknown code =>
      refine ⟨{ m with stopped := true }, ?_, h.configuration_eq⟩
      split <;> simp_all

/-- A plain instruction has its effect, and the machine goes on behind it; a read that starves
stops the machine. -/
theorem Shows.step_plain (h : m.Shows code policy pc s) (i : PlainInstruction)
    (hi : code[pc]? = some i.val.copied) :
    match i.val.effect policy s with
    | some next => ∃ m', m.step = (m', none) ∧ m'.Shows code policy (pc + 1) next
    | none => ∃ last, m.step = (last, some .halted) ∧ last.configuration = s := by
  obtain ⟨m', hstep, h'⟩ := h.exists_step_eq _ hi
  rw [hstep]
  have hplain := i.property
  cases hop : i.val.op with
  | loopEnter | loopExit =>
    rw [hop] at hplain
    cases hplain
  | nop | undefined rest =>
    simp only [Instruction.effect, hop]
    exact ⟨m'.advance, by simp [execute, Instruction.copied, hop], h'.advance⟩
  | moveCursor =>
    simp only [Instruction.effect, hop]
    exact ⟨_, by simp only [execute, Instruction.copied, hop, Int64.ofInt_toInt],
      (h'.moveCursor i.val.arg).advance⟩
  | moveCell =>
    simp only [Instruction.effect, hop, ← Tape.add_lowByte]
    exact ⟨m'.addCell i.val.arg, by simp only [execute, Instruction.copied, hop, Int64.ofInt_toInt],
      (h'.modify _).advance⟩
  | print =>
    simp only [Instruction.effect, hop, execute, Instruction.copied]
    exact h'.writeCell
  | read =>
    simp only [Instruction.effect, hop, execute, Instruction.copied]
    exact h'.readCell

end Steps

end Machine

/-! ## Trees placed in a program -/

namespace Fragment

/-- What a list holds behind the first part of its rest. -/
theorem drop_add_of_drop_eq {program back : List Instruction} {index : Nat}
    (front : List Instruction) (h : program.drop index = front ++ back) :
    program.drop (index + front.length) = back := by
  rw [← List.drop_drop, h, List.drop_left]

/-- The instruction that the rest of a program begins with. -/
theorem getElem?_of_drop_eq {program back : List Instruction} {index : Nat} {i : Instruction}
    (h : program.drop index = i :: back) : program[index]? = some i := by
  rw [← List.head?_drop, h, List.head?_cons]

/-- Where a machine may stand to run a tree: at its first instruction, or at the closing bracket
of a loop it begins with. From there the loop is run again or left, just as at its start. -/
def IsEntry (index : Nat) (place : Nat) : List Fragment → Prop
  | loop _ _ body :: _ => place = index ∨ place = index + 1 + (flatten body).length
  | _ => place = index

/-- A loop is its body and two brackets, with the rest behind it. -/
theorem add_length_flatten_loop (index : Nat) (enter : EnterInstruction) (exit : ExitInstruction)
    (body rest : List Fragment) :
    index + (flatten (loop enter exit body :: rest)).length =
      index + 1 + (flatten body).length + 1 + (flatten rest).length := by
  simp only [flatten_loop, List.length_cons, List.length_append]
  omega

/-- A tree is entered at its beginning. -/
theorem isEntry_self (index : Nat) (tree : List Fragment) : IsEntry index index tree := by
  unfold IsEntry
  split
  · exact .inl rfl
  · rfl

end Fragment

namespace Machine

section Simulation

variable {code : Array LinkedInstruction} {policy : EofPolicy} {index place : Nat} {m m' : Machine}
  {s t : Configuration} {exit : Exit} {tree : List Fragment}

open Fragment

/-- At either bracket of a loop the cell decides between its body and what is behind it. -/
theorem Shows.step_loop {last : Nat} {enter : EnterInstruction} {exit : ExitInstruction}
    (enter_eq : code[index]? = some (enter.val.linkedTo last))
    (exit_eq : code[last]? = some (exit.val.linkedTo index)) (h : m.Shows code policy place s)
    (hplace : place = index ∨ place = last) :
    ∃ m', m.step = (m', none) ∧
      m'.Shows code policy (if s.cell = 0 then last + 1 else index + 1) s := by
  rcases hplace with rfl | rfl
  · exact h.step_enter enter last enter_eq
  · exact h.step_exit exit index exit_eq

/-! ## From trees to machines -/

/-- A machine gets to `place` if the exit is `finished`, halts if it is `starved`, and passes
through if it is `cut`; what it shows there is `t`. -/
def Reaches (m : Machine) (code : Array LinkedInstruction) (policy : EofPolicy) (place : Nat)
    (t : Configuration) : Exit → Prop
  | .finished =>
    ∃ (m' : Machine) (steps : Nat), m'.Shows code policy place t ∧
      ∀ fuel, m.runFor (steps + fuel) = m'.runFor fuel
  | .starved => ∃ fuel last, m.runFor fuel = (last, .halted) ∧ last.configuration = t
  | .cut => ∃ fuel last, m.runFor fuel = (last, .unfinished) ∧ last.configuration = t

/-- What a machine reaches some steps later it reaches. -/
theorem Reaches.of_runFor (steps : Nat) (hsteps : ∀ fuel, m.runFor (steps + fuel) = m'.runFor fuel)
    (h : m'.Reaches code policy place t exit) :
    m.Reaches code policy place t exit := by
  cases exit with
  | finished =>
    obtain ⟨there, more, hshows, hmore⟩ := h
    refine ⟨there, steps + more, hshows, fun fuel => ?_⟩
    rw [Nat.add_assoc, hsteps, hmore]
  | starved | cut =>
    obtain ⟨fuel, last, hrun, hlast⟩ := h
    exact ⟨steps + fuel, last, by rw [hsteps, hrun], hlast⟩

/-- What a machine reaches after a step it reaches. -/
theorem Reaches.of_step (hstep : m.step = (m', none)) (h : m'.Reaches code policy place t exit) :
    m.Reaches code policy place t exit :=
  h.of_runFor 1 fun fuel => by rw [Nat.add_comm, runFor_succ hstep]

/-- A machine at an entry of a tree reaches what the tree runs to. -/
theorem reaches_of_runs (hruns : Runs policy tree s exit t) (h : m.Shows code policy place s)
    (hplaced : Placed code index tree) (hentry : IsEntry index place tree) :
    m.Reaches code policy (index + (flatten tree).length) t exit := by
  induction hruns generalizing m index place with
  | finish =>
    obtain rfl : place = index := hentry
    exact ⟨m, 0, by simpa using h, fun fuel => by rw [Nat.zero_add]⟩
  | cut => exact ⟨0, m, rfl, h.configuration_eq⟩
  | plain effect_eq _ ih =>
    obtain rfl : place = index := hentry
    cases hplaced with
    | plain at_eq behind =>
      have hstep := h.step_plain _ at_eq
      rw [effect_eq] at hstep
      obtain ⟨m', hstep, h'⟩ := hstep
      have hrest := ih h' behind (isEntry_self _ _)
      rw [flatten_plain, List.length_cons, Nat.add_comm _ 1, ← Nat.add_assoc]
      exact hrest.of_step hstep
  | starve effect_eq =>
    obtain rfl : place = index := hentry
    cases hplaced with
    | plain at_eq behind =>
      have hstep := h.step_plain _ at_eq
      rw [effect_eq] at hstep
      obtain ⟨last, hstep, hlast⟩ := hstep
      exact ⟨1, last, runFor_stop hstep 0, hlast⟩
  | skip cell_eq _ ih =>
    cases hplaced with
    | loop last_eq enter_eq exit_eq inside behind =>
      subst last_eq
      obtain ⟨m', hstep, h'⟩ := h.step_loop enter_eq exit_eq hentry
      rw [if_pos cell_eq] at h'
      have hrest := ih h' behind (isEntry_self _ _)
      rw [add_length_flatten_loop]
      exact hrest.of_step hstep
  | again cell_ne _ _ ihBody ihLoop =>
    cases hplaced with
    | loop last_eq enter_eq exit_eq inside behind =>
      subst last_eq
      obtain ⟨m', hstep, h'⟩ := h.step_loop enter_eq exit_eq hentry
      rw [if_neg cell_ne] at h'
      obtain ⟨there, steps, hthere, hsteps⟩ := ihBody h' inside (isEntry_self _ _)
      have hagain := ihLoop hthere (.loop rfl enter_eq exit_eq inside behind)
        (.inr rfl)
      exact (hagain.of_runFor steps hsteps).of_step hstep
  | @inside enter last body rest s exit t cell_ne _ exit_ne ih =>
    cases hplaced with
    | loop last_eq enter_eq exit_eq inside behind =>
      subst last_eq
      obtain ⟨m', hstep, h'⟩ := h.step_loop enter_eq exit_eq hentry
      rw [if_neg cell_ne] at h'
      have hbody := (ih h' inside (isEntry_self _ _)).of_step hstep
      -- `Reaches` looks at the place only when the exit is `finished`
      cases exit with
      | finished => exact absurd rfl exit_ne
      | starved => exact hbody
      | cut => exact hbody

/-! ## From machines to trees -/

/-- A bounded run is one of `runs`: it halts in a starved one, is cut off in a cut one, or gets
through a finished one to `place` with steps left over. -/
inductive Follows (m : Machine) (code : Array LinkedInstruction) (policy : EofPolicy)
    (place fuel : Nat) (runs : Exit → Configuration → Prop) : Prop
  | starved (last : Machine) (run_eq : m.runFor fuel = (last, .halted))
      (run : runs .starved last.configuration)
  | cut (last : Machine) (run_eq : m.runFor fuel = (last, .unfinished))
      (run : runs .cut last.configuration)
  | through (m' : Machine) (less : Nat) (t : Configuration) (le : less ≤ fuel)
      (run_eq : m.runFor fuel = m'.runFor less) (shows_eq : m'.Shows code policy place t)
      (run : runs .finished t)

/-- What a later machine follows is followed from before, if each of its runs extends to one. -/
theorem Follows.extend {fuel less : Nat} {runs more : Exit → Configuration → Prop}
    (h : m'.Follows code policy place less runs) (hle : less ≤ fuel)
    (hrun : m.runFor fuel = m'.runFor less) (hmore : ∀ exit t, runs exit t → more exit t) :
    m.Follows code policy place fuel more := by
  cases h with
  | starved last run_eq run => exact .starved last (hrun.trans run_eq) (hmore _ _ run)
  | cut last run_eq run => exact .cut last (hrun.trans run_eq) (hmore _ _ run)
  | through there left t le run_eq shows_eq run =>
    exact .through there left t (Nat.le_trans le hle) (hrun.trans run_eq) shows_eq (hmore _ _ run)

/-- A machine at an entry of a tree follows the runs of the tree. -/
theorem follows_runs (fuel : Nat) (h : m.Shows code policy place s)
    (hplaced : Placed code index tree) (hentry : IsEntry index place tree) :
    m.Follows code policy (index + (flatten tree).length) fuel (Runs policy tree s) := by
  induction fuel using Nat.strongRecOn generalizing m index place tree s with
  | ind fuel ih =>
    match fuel with
    | 0 => exact .cut m rfl (by rw [h.configuration_eq]; exact .cut)
    | fuel + 1 =>
      cases hplaced with
      | nil =>
        obtain rfl : place = index := hentry
        exact .through m (fuel + 1) s (Nat.le_refl _) rfl (by simpa using h) .finish
      | @plain _ i rest at_eq behind =>
        obtain rfl : place = index := hentry
        have hstep := h.step_plain _ at_eq
        cases heffect : i.val.effect policy s with
        | none =>
          rw [heffect] at hstep
          obtain ⟨last, hstep, hlast⟩ := hstep
          exact .starved last (runFor_stop hstep fuel) (by rw [hlast]; exact .starve heffect)
        | some next =>
          rw [heffect] at hstep
          obtain ⟨m', hstep, h'⟩ := hstep
          have hrest := ih fuel (Nat.lt_succ_self fuel) h' behind (isEntry_self _ _)
          rw [flatten_plain, List.length_cons, Nat.add_comm _ 1, ← Nat.add_assoc]
          exact hrest.extend (Nat.le_succ fuel) (runFor_succ hstep fuel)
            fun _ _ hruns => .plain heffect hruns
      | @loop _ last enter exit body rest last_eq enter_eq exit_eq inside behind =>
        subst last_eq
        obtain ⟨m', hstep, h'⟩ := h.step_loop enter_eq exit_eq hentry
        by_cases hzero : s.cell = 0
        · rw [if_pos hzero] at h'
          have hrest := ih fuel (Nat.lt_succ_self fuel) h' behind (isEntry_self _ _)
          rw [add_length_flatten_loop]
          exact hrest.extend (Nat.le_succ fuel) (runFor_succ hstep fuel)
            fun _ _ hruns => .skip hzero hruns
        · rw [if_neg hzero] at h'
          have hbody := ih fuel (Nat.lt_succ_self fuel) h' inside (isEntry_self _ _)
          cases hbody with
          | starved last run_eq run =>
            exact .starved last ((runFor_succ hstep fuel).trans run_eq) (.inside hzero run (by simp))
          | cut last run_eq run =>
            exact .cut last ((runFor_succ hstep fuel).trans run_eq) (.inside hzero run (by simp))
          | through there less t le run_eq shows_eq run =>
            -- the machine is at the closing bracket: an entry of the loop, with steps used up
            have hagain := ih less (Nat.lt_succ_of_le le) shows_eq
              (.loop rfl enter_eq exit_eq inside behind) (.inr rfl)
            exact hagain.extend (Nat.le_succ_of_le le)
              ((runFor_succ hstep fuel).trans run_eq) fun _ _ hruns => .again hzero run hruns

end Simulation

/-! ## Loaded programs -/

section Loaded

variable {program : List Instruction} {input : List UInt8} {policy : EofPolicy} {m : Machine}
  {code : Array LinkedInstruction} {s : Configuration} {tree : List Fragment}

/-- The run of a machine halts and shows `t` at its end. -/
def HaltsShowing (m : Machine) (t : Configuration) : Prop :=
  ∃ last, m.run = some (last, .halted) ∧ last.configuration = t

/-- At some point of its run a machine has written just `output`. -/
def HasWritten (m : Machine) (output : List UInt8) : Prop :=
  ∃ fuel, (m.runFor fuel).1.configuration.output = output

/-- A machine halts just if it does so in a bounded run. -/
theorem haltsShowing_iff (m : Machine) (t : Configuration) :
    m.HaltsShowing t ↔ ∃ fuel last, m.runFor fuel = (last, .halted) ∧ last.configuration = t := by
  constructor
  · rintro ⟨last, hrun, hlast⟩
    obtain ⟨fuel, hfuel, -⟩ := (run_eq_some_iff m _).mp hrun
    exact ⟨fuel, last, hfuel, hlast⟩
  · rintro ⟨fuel, last, hfuel, hlast⟩
    exact ⟨last, (run_eq_some_iff m _).mpr ⟨fuel, hfuel, by simp⟩, hlast⟩

/-- The options of a run from memory: nothing but the program ends it. -/
def fromMemory (input : List UInt8) (policy : EofPolicy) : MachineOptions :=
  { input := { bytes := input }, policy }

/-- A loaded machine shows the start of a tree that is its whole program. -/
theorem exists_placed_of_load (hload : load program (fromMemory input policy) = .ok m) :
    ∃ tree code, Fragment.flatten tree = program ∧ Fragment.IsCode code tree ∧
      m.Shows code policy 0 (.start input) := by
  cases hlink : Brackets.link program with
  | error unbalanced =>
    rw [load, hlink] at hload
    cases hload
  | ok code =>
    obtain ⟨tree, htree, hcode⟩ := Fragment.exists_isCode_of_link hlink
    rw [load, hlink] at hload
    cases hload
    refine ⟨tree, code, htree, hcode, ?_⟩
    exact
      { program_eq := rfl, policy_eq := rfl, limit_eq := rfl, broken_eq := rfl,
        capacity_eq := rfl, stopped_eq := rfl, pc_eq := rfl,
        configuration_eq := Configuration.ext rfl (funext Tape.get_empty) rfl rfl }

/-- A bounded run of a whole tree halts in a finished or starved run of it, or is cut off in a
cut one. Nothing else stops it. -/
theorem runFor_cases (hcode : Fragment.IsCode code tree) (h : m.Shows code policy 0 s) (fuel : Nat) :
    ∃ last,
      m.runFor fuel = (last, .halted) ∧
        (Fragment.Runs policy tree s .finished last.configuration ∨
          Fragment.Runs policy tree s .starved last.configuration) ∨
      m.runFor fuel = (last, .unfinished) ∧ Fragment.Runs policy tree s .cut last.configuration := by
  cases follows_runs fuel h hcode.placed (Fragment.isEntry_self 0 tree) with
  | starved last run_eq run => exact ⟨last, .inl ⟨run_eq, .inr run⟩⟩
  | cut last run_eq run => exact ⟨last, .inr ⟨run_eq, run⟩⟩
  | through there less t le run_eq shows_eq run =>
    obtain ⟨last, hstep, hlast⟩ := shows_eq.step_end (by simp [hcode.size_eq])
    cases less with
    | zero =>
      refine ⟨there, .inr ⟨run_eq, ?_⟩⟩
      rw [shows_eq.configuration_eq]
      exact run.cut_of_finished
    | succ less =>
      refine ⟨last, .inl ⟨run_eq.trans (runFor_stop hstep less), .inl ?_⟩⟩
      rw [hlast]
      exact run

/-- A machine halts in exactly the configurations its tree finishes or starves in. -/
theorem halts_iff_runs (hcode : Fragment.IsCode code tree) (h : m.Shows code policy 0 s)
    (t : Configuration) :
    m.HaltsShowing t ↔
      Fragment.Runs policy tree s .finished t ∨ Fragment.Runs policy tree s .starved t := by
  rw [haltsShowing_iff]
  constructor
  · rintro ⟨fuel, last, hrun, rfl⟩
    obtain ⟨last', ⟨hrun', hruns⟩ | ⟨hrun', -⟩⟩ := runFor_cases hcode h fuel
    · rw [hrun] at hrun'
      cases hrun'
      exact hruns
    · rw [hrun] at hrun'
      cases hrun'
  · rintro (hruns | hruns)
    · obtain ⟨there, steps, hthere, hsteps⟩ :=
        reaches_of_runs hruns h hcode.placed (Fragment.isEntry_self 0 tree)
      obtain ⟨last, hstep, hlast⟩ := hthere.step_end (by simp [hcode.size_eq])
      exact ⟨steps + 1, last, by rw [hsteps, runFor_stop hstep 0]; rfl, hlast⟩
    · exact reaches_of_runs hruns h hcode.placed (Fragment.isEntry_self 0 tree)

/-- A machine passes through exactly the configurations its tree can be cut short in. -/
theorem passes_iff_runs (hcode : Fragment.IsCode code tree) (h : m.Shows code policy 0 s)
    (t : Configuration) :
    (∃ fuel last, m.runFor fuel = (last, .unfinished) ∧ last.configuration = t) ↔
      Fragment.Runs policy tree s .cut t := by
  constructor
  · rintro ⟨fuel, last, hrun, rfl⟩
    obtain ⟨last', ⟨hrun', -⟩ | ⟨hrun', hruns⟩⟩ := runFor_cases hcode h fuel
    · rw [hrun] at hrun'
      cases hrun'
    · rw [hrun] at hrun'
      cases hrun'
      exact hruns
  · intro hruns
    exact reaches_of_runs hruns h hcode.placed (Fragment.isEntry_self 0 tree)

/-- What a machine has written at some point is what its tree has, at some exit. -/
theorem hasWritten_iff_runs (hcode : Fragment.IsCode code tree) (h : m.Shows code policy 0 s)
    (output : List UInt8) :
    m.HasWritten output ↔ ∃ exit t, Fragment.Runs policy tree s exit t ∧ t.output = output := by
  constructor
  · rintro ⟨fuel, rfl⟩
    obtain ⟨last, ⟨hrun, hruns | hruns⟩ | ⟨hrun, hruns⟩⟩ := runFor_cases hcode h fuel
    all_goals exact ⟨_, _, hruns, by rw [hrun]⟩
  · rintro ⟨exit, t, hruns, rfl⟩
    have hfuel : ∃ fuel last ending, m.runFor fuel = (last, ending) ∧ last.configuration = t := by
      cases exit with
      | finished =>
        obtain ⟨fuel, last, hrun, hlast⟩ :=
          (haltsShowing_iff m t).mp ((halts_iff_runs hcode h t).mpr (.inl hruns))
        exact ⟨fuel, last, _, hrun, hlast⟩
      | starved =>
        obtain ⟨fuel, last, hrun, hlast⟩ :=
          (haltsShowing_iff m t).mp ((halts_iff_runs hcode h t).mpr (.inr hruns))
        exact ⟨fuel, last, _, hrun, hlast⟩
      | cut =>
        obtain ⟨fuel, last, hrun, hlast⟩ := (passes_iff_runs hcode h t).mpr hruns
        exact ⟨fuel, last, _, hrun, hlast⟩
    obtain ⟨fuel, last, ending, hrun, hlast⟩ := hfuel
    exact ⟨fuel, by rw [hrun, hlast]⟩

/-- A loaded program ends only by halting. -/
theorem ending_eq_halted (hload : load program (fromMemory input policy) = .ok m) {last : Machine}
    {ending : Ending} (hrun : m.run = some (last, ending)) : ending = .halted := by
  obtain ⟨tree, code, rfl, hcode, hshows⟩ := exists_placed_of_load hload
  obtain ⟨fuel, hfuel, hfinished⟩ := (run_eq_some_iff m _).mp hrun
  obtain ⟨last', ⟨hrun', -⟩ | ⟨hrun', -⟩⟩ := runFor_cases hcode hshows fuel
  · rw [hfuel] at hrun'
    exact (Prod.mk.inj hrun').2
  · rw [hfuel] at hrun'
    exact absurd (Prod.mk.inj hrun').2 hfinished

/-- The machine refines the meaning of loops. An accepted program is the writing of exactly one
tree; running it comes to an end if and only if the tree finishes or starves, it then always
halts, and output, cells, cursor and remaining input are those of the tree. -/
theorem run_refines_loops (program : List Instruction) (input : List UInt8) (policy : EofPolicy)
    (m : Machine) (hload : load program (fromMemory input policy) = .ok m) :
    ∃ tree, (∀ other, Fragment.flatten other = program ↔ other = tree) ∧
      (∀ last ending, m.run = some (last, ending) → ending = .halted) ∧
      ∀ t, (∃ last, m.run = some (last, .halted) ∧ last.configuration = t) ↔
        Fragment.Runs policy tree (.start input) .finished t ∨
          Fragment.Runs policy tree (.start input) .starved t := by
  obtain ⟨tree, code, rfl, hcode, hshows⟩ := exists_placed_of_load hload
  exact ⟨tree, fun other => Fragment.flatten_injective.eq_iff,
    fun last ending hrun => ending_eq_halted hload hrun, halts_iff_runs hcode hshows⟩

/-- Writing back all input leaves its loop by starving inside it. -/
theorem run_refines_loops_echo :
    ∃ m last,
      load [.moveCell 1, .loopEnter, .read, .print, .loopExit] (fromMemory [7] .halt) = .ok m ∧
        m.run = some (last, .halted) ∧ last.configuration.output = [7] ∧
        last.configuration.input = [] := by
  obtain ⟨m, hload⟩ : ∃ m,
      load [.moveCell 1, .loopEnter, .read, .print, .loopExit] (fromMemory [7] .halt) = .ok m :=
    ⟨_, rfl⟩
  obtain ⟨tree, htree, -, hruns⟩ := run_refines_loops _ [7] .halt m hload
  obtain rfl := (htree [.plain ⟨.moveCell 1, rfl⟩,
    .loop ⟨.loopEnter, rfl⟩ ⟨.loopExit, rfl⟩ [.plain ⟨.read, rfl⟩, .plain ⟨.print, rfl⟩]]).mp (by simp)
  obtain ⟨last, hrun, hlast⟩ := (hruns _).mpr (.inr (.plain rfl (.again (by decide)
    (.plain rfl (.plain rfl .finish)) (.inside (by decide) (.starve rfl) (by decide)))))
  refine ⟨m, last, hload, hrun, ?_, ?_⟩
  · rw [hlast]
    rfl
  · rw [hlast]

end Loaded

end Machine

end Tapestry

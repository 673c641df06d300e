import Tapestry.Proofs.LoopRefinement

/-!
# Where the cursor is

The moves of a list of instructions add up to its drift. Where every loop comes back to the cell
its body starts on, going around or past a loop changes nothing, so at each instruction of a
program the cursor is where the moves written before it take it, however often its loops have run.
-/

namespace Tapestry

/-- How far an instruction moves the cursor. -/
def Instruction.drift (instruction : Instruction) : Int64 :=
  match instruction.op with
  | .moveCursor => instruction.arg
  | _ => 0

/-- How far instructions move the cursor, one after the other. -/
def drift : List Instruction → Int64
  | [] => 0
  | instruction :: rest => instruction.drift + drift rest

/-- The empty program leaves the cursor where it is. -/
@[simp]
theorem drift_nil : drift [] = 0 := rfl

/-- The first instruction moves the cursor before the others do. -/
@[simp]
theorem drift_cons (i : Instruction) (rest : List Instruction) :
    drift (i :: rest) = i.drift + drift rest := rfl

/-- Programs move the cursor in turn. -/
@[simp]
theorem drift_append (front back : List Instruction) :
    drift (front ++ back) = drift front + drift back := by
  induction front with
  | nil => simp
  | cons i front ih => rw [List.cons_append, drift_cons, drift_cons, ih, Int64.add_assoc]

/-- A move moves the cursor as far as it says. -/
@[simp]
theorem Instruction.drift_moveCursor (delta : Int64) : (moveCursor delta).drift = delta := rfl

/-- Changing a cell does not move the cursor. -/
@[simp]
theorem Instruction.drift_moveCell (delta : Int64) : (moveCell delta).drift = 0 := rfl

/-- A bracket does not move the cursor. -/
theorem Instruction.drift_of_isLoop {i : Instruction} (h : i.op.isLoop = true) : i.drift = 0 := by
  unfold Instruction.drift
  cases hop : i.op <;> simp_all [Opcode.isLoop]

/-- The drift up to a place behind a part of the program. -/
theorem drift_take_add {program front back : List Instruction} {index : Nat}
    (h : program.drop index = front ++ back) :
    drift (program.take (index + front.length)) = drift (program.take index) + drift front := by
  rw [List.take_add, h, List.take_left, drift_append]

/-- The drift up to a place behind an instruction. -/
theorem drift_take_succ {program : List Instruction} {index : Nat} {i : Instruction}
    (h : program[index]? = some i) :
    drift (program.take (index + 1)) = drift (program.take index) + i.drift := by
  rw [List.take_add_one, h, drift_append]
  simp

/-! ## Steady programs -/

namespace Fragment

variable {program : List Instruction} {index place : Nat}

/-- Fragments whose loops come back to the cell their bodies start on. -/
inductive Steady : List Fragment → Prop where
  | nil : Steady []
  | plain {i rest} (behind : Steady rest) : Steady (plain i :: rest)
  | loop {enter exit body rest} (level : drift (flatten body) = 0) (inside : Steady body)
      (behind : Steady rest) : Steady (loop enter exit body :: rest)

/-- Trees are written in turn. -/
theorem flatten_append (front back : List Fragment) :
    flatten (front ++ back) = flatten front ++ flatten back := by
  induction front with
  | nil => simp
  | cons fragment front ih => rw [List.cons_append, flatten, flatten, ih, List.append_assoc]

/-- Steady trees are steady together. -/
theorem Steady.append {front back : List Fragment} (hfront : Steady front) (hback : Steady back) :
    Steady (front ++ back) := by
  induction hfront with
  | nil => exact hback
  | plain _ ih => exact .plain ih
  | loop level inside _ _ ih => exact .loop level inside ih

/-- The drift inside a loop that comes back, at its closing bracket and behind it is that before
the loop. -/
theorem drift_take_loop {back : List Instruction} {enter : EnterInstruction}
    {exit : ExitInstruction} {body : List Fragment}
    (hwritten : program.drop index = enter.val :: (flatten body ++ exit.val :: back))
    (hlevel : drift (flatten body) = 0) :
    drift (program.take (index + 1)) = drift (program.take index) ∧
      drift (program.take (index + 1 + (flatten body).length)) = drift (program.take index) ∧
        drift (program.take (index + 1 + (flatten body).length + 1)) = drift (program.take index) := by
  have hbody : program.drop (index + 1) = flatten body ++ exit.val :: back :=
    drop_add_of_drop_eq [enter.val] hwritten
  have hexit : program.drop (index + 1 + (flatten body).length) = exit.val :: back :=
    drop_add_of_drop_eq (flatten body) hbody
  have hinside : drift (program.take (index + 1)) = drift (program.take index) := by
    rw [drift_take_succ (getElem?_of_drop_eq hwritten),
      Instruction.drift_of_isLoop (by rw [enter.property]; rfl), Int64.add_zero]
  have hlast : drift (program.take (index + 1 + (flatten body).length)) =
      drift (program.take index) := by
    rw [drift_take_add hbody, hlevel, Int64.add_zero, hinside]
  refine ⟨hinside, hlast, ?_⟩
  rw [drift_take_succ (getElem?_of_drop_eq hexit),
    Instruction.drift_of_isLoop (by rw [exit.property]; rfl), Int64.add_zero, hlast]

/-- What a linked program has at a place where a steady program has an instruction: a move of the cursor
that goes as far, a bracket whose argument is the index of an instruction behind which the drift is the
same, or an instruction that stays. -/
inductive KeepsDrift (program : List Instruction) (place : Nat) (i : LinkedInstruction) : Prop where
  | pass (plain : i.op.isLoop = false)
      (moved : drift (program.take (place + 1)) =
        drift (program.take place) + if i.op = .moveCursor then Int64.ofInt i.arg else 0)
  | bracket {index : Nat} (bracket : i.op.isLoop = true) (arg_eq : i.arg = index)
      (advanced : drift (program.take (place + 1)) = drift (program.take place))
      (jumped : drift (program.take (index + 1)) = drift (program.take place))

/-- A plain instruction moves the cursor in a linked program as it does in the program. -/
theorem keepsDrift_of_plain (i : PlainInstruction) (hat : program[place]? = some i.val) :
    KeepsDrift program place i.val.copied := by
  refine .pass i.property ?_
  rw [drift_take_succ hat, Instruction.drift, Instruction.copied, Int64.ofInt_toInt]
  cases i.val.op <;> rfl

/-- Every instruction of a steady tree keeps the drift. -/
theorem keepsDrift_of_placed {code : Array LinkedInstruction} {tree : List Fragment}
    (hplaced : Placed code index tree) (hsteady : Steady tree) (behind : List Instruction)
    (hwritten : program.drop index = flatten tree ++ behind) {i : LinkedInstruction}
    (hlow : index ≤ place) (hhigh : place < index + (flatten tree).length)
    (hat : code[place]? = some i) :
    KeepsDrift program place i := by
  induction hplaced generalizing behind with
  | nil =>
    rw [flatten_nil, List.length_nil] at hhigh
    omega
  | @plain index plain rest at_eq _ ih =>
    cases hsteady with
    | plain hrest =>
      rw [flatten_plain] at hwritten
      rw [flatten_plain, List.length_cons] at hhigh
      by_cases hplace : place = index
      · subst hplace
        obtain rfl := Option.some.inj (at_eq.symm.trans hat)
        exact keepsDrift_of_plain plain (getElem?_of_drop_eq hwritten)
      · exact ih hrest behind (drop_add_of_drop_eq [plain.val] hwritten) (by omega) (by omega)
  | @loop index last enter exit body rest last_eq enter_eq exit_eq _ _ ihBody ihTail =>
    cases hsteady with
    | loop hlevel hinside hrest =>
      rw [add_length_flatten_loop] at hhigh
      rw [flatten_loop, List.cons_append, List.append_assoc, List.cons_append] at hwritten
      have hbody : program.drop (index + 1) = flatten body ++ exit.val :: (flatten rest ++ behind) :=
        drop_add_of_drop_eq [enter.val] hwritten
      have htail : program.drop (last + 1) = flatten rest ++ behind := by
        have hexit := drop_add_of_drop_eq (flatten body) hbody
        rw [← last_eq] at hexit
        exact drop_add_of_drop_eq [exit.val] hexit
      obtain ⟨henter, hlast, hpast⟩ := drift_take_loop hwritten hlevel
      rw [← last_eq] at hlast hpast
      by_cases hfirst : place = index
      · subst hfirst
        obtain rfl := Option.some.inj (enter_eq.symm.trans hat)
        exact .bracket (by rw [Instruction.linkedTo, enter.property]; rfl) rfl henter hpast
      by_cases hplace : place = last
      · subst hplace
        obtain rfl := Option.some.inj (exit_eq.symm.trans hat)
        exact .bracket (by rw [Instruction.linkedTo, exit.property]; rfl) rfl (hpast.trans hlast.symm)
          (henter.trans hlast.symm)
      by_cases hbefore : place < last
      · exact ihBody hinside _ hbody (by omega) (by omega)
      · exact ihTail hrest behind htail (by omega) (by omega)

end Fragment

/-- Instructions that are written from steady fragments. -/
def Steady (program : List Instruction) : Prop :=
  ∃ tree, Fragment.flatten tree = program ∧ Fragment.Steady tree

namespace Steady

variable {program front back body : List Instruction}

/-- The empty program is steady. -/
theorem nil : Steady [] := ⟨[], by simp, .nil⟩

/-- Instructions without brackets are steady in front of a steady program. -/
theorem plain {i : Instruction} (hplain : i.op.isLoop = false) (h : Steady program) :
    Steady (i :: program) := by
  obtain ⟨tree, rfl, hsteady⟩ := h
  exact ⟨.plain ⟨i, hplain⟩ :: tree, by simp, .plain hsteady⟩

/-- Steady programs are steady together. -/
theorem append (hfront : Steady front) (hback : Steady back) : Steady (front ++ back) := by
  obtain ⟨tree, rfl, hsteady⟩ := hfront
  obtain ⟨other, rfl, hother⟩ := hback
  exact ⟨tree ++ other, Fragment.flatten_append tree other, hsteady.append hother⟩

/-- A loop around steady instructions that bring the cursor back is steady. -/
theorem loop (hbody : Steady body) (hdrift : drift body = 0) :
    Steady (.loopEnter :: body ++ [.loopExit]) := by
  obtain ⟨tree, rfl, hsteady⟩ := hbody
  exact ⟨[.loop ⟨.loopEnter, rfl⟩ ⟨.loopExit, rfl⟩ tree], by simp, .loop hdrift hsteady .nil⟩

end Steady

/-- Steady instructions that bring the cursor back to where it was. -/
structure Level (code : List Instruction) : Prop where
  steady : Steady code
  drift_eq : drift code = 0

namespace Level

variable {front back : List Instruction}

/-- The empty program is level. -/
theorem nil : Level [] := ⟨.nil, rfl⟩

/-- Level programs are level together. -/
theorem append (hfront : Level front) (hback : Level back) : Level (front ++ back) :=
  ⟨hfront.steady.append hback.steady, by simp [hfront.drift_eq, hback.drift_eq]⟩

/-- An instruction that stays where it is. -/
theorem single {i : Instruction} (hplain : i.op.isLoop = false) (hdrift : i.drift = 0) : Level [i] :=
  ⟨.plain hplain .nil, by simp [hdrift]⟩

/-- A loop whose body brings the cursor back. -/
theorem loop {body : List Instruction} (h : Level body) :
    Level (.loopEnter :: body ++ [.loopExit]) :=
  ⟨h.steady.loop h.drift_eq, by
    have hbracket {i : Instruction} (hi : i.op.isLoop = true) := Instruction.drift_of_isLoop hi
    simp [h.drift_eq, hbracket (i := .loopEnter) rfl, hbracket (i := .loopExit) rfl]⟩

/-- Level pieces are level together. -/
theorem flatMap {α : Type} {items : List α} {code : α → List Instruction}
    (h : ∀ item ∈ items, Level (code item)) : Level (items.flatMap code) := by
  induction items with
  | nil => exact nil
  | cons item rest ih =>
    rw [List.flatMap_cons]
    exact (h item List.mem_cons_self).append
      (ih fun other hother => h other (List.mem_cons_of_mem item hother))

end Level

/-! ## Steady runs -/

namespace Machine

/-- A machine at work on a linked program has its cursor where the moves before its instruction take
it. -/
structure OnCourse (m : Machine) (program : List Instruction) (code : Array LinkedInstruction) : Prop where
  program_eq : m.program = code
  cursor_eq : m.cursor = drift (program.take m.pc)

variable {m : Machine} {program : List Instruction} {code : Array LinkedInstruction}
  {i : LinkedInstruction}

/-- Executing an instruction that keeps the drift keeps a machine on course. -/
theorem OnCourse.execute (h : m.OnCourse program code) (hkeeps : Fragment.KeepsDrift program m.pc i) :
    (m.execute i).1.OnCourse program code := by
  cases hkeeps with
  | @bracket index bracket arg_eq advanced jumped =>
    have hadvance : m.advance.OnCourse program code := ⟨h.program_eq, h.cursor_eq.trans advanced.symm⟩
    have hjump : (m.jump i.arg).OnCourse program code := by
      refine ⟨h.program_eq, h.cursor_eq.trans ?_⟩
      rw [jump, arg_eq]
      exact jumped.symm
    unfold Machine.execute
    cases hop : i.op with
    | loopEnter =>
      dsimp only
      split
      · exact hjump
      · exact hadvance
    | loopExit =>
      dsimp only
      split
      · exact hadvance
      · exact hjump
    | _ => simp [hop, Opcode.isLoop] at bracket
  | pass plain moved =>
    have hpass {next : Machine} (hprogram : next.program = m.program) (hpc : next.pc = m.pc + 1)
        (hcursor : next.cursor = m.cursor + if i.op = .moveCursor then Int64.ofInt i.arg else 0) :
        next.OnCourse program code :=
      ⟨hprogram.trans h.program_eq, by rw [hcursor, hpc, moved, h.cursor_eq]⟩
    unfold Machine.execute
    cases hop : i.op with
    | loopEnter | loopExit => simp [hop, Opcode.isLoop] at plain
    | moveCursor => exact hpass rfl rfl (by simp [hop, advance])
    | moveCell | nop | undefined => exact hpass rfl rfl (by simp [hop, advance, addCell])
    | print =>
      unfold writeCell
      dsimp only
      split
      · exact h
      · exact hpass rfl rfl (by simp [hop, advance])
    | read =>
      unfold readCell readPastEnd
      dsimp only
      split
      · exact hpass rfl rfl (by simp [hop, advance])
      · split
        · exact h
        · exact hpass rfl rfl (by simp [hop, advance])
        · exact hpass rfl rfl (by simp [hop, advance])
        · exact ⟨h.program_eq, h.cursor_eq⟩

section Steps

variable (hkeeps : ∀ place i, code[place]? = some i → Fragment.KeepsDrift program place i)

include hkeeps

/-- A step keeps a machine on course. -/
theorem OnCourse.step (h : m.OnCourse program code) : m.step.1.OnCourse program code := by
  unfold Machine.step
  split
  · exact h
  · split
    case h_1 => exact ⟨h.program_eq, h.cursor_eq⟩
    case h_2 i hat =>
      rw [h.program_eq] at hat
      split
      · exact h
      · have hcounted : { m with steps := m.steps + 1 }.OnCourse program code :=
          ⟨h.program_eq, h.cursor_eq⟩
        exact hcounted.execute (hkeeps _ i hat)

/-- A run keeps a machine on course. -/
theorem OnCourse.runFor (h : m.OnCourse program code) (fuel : Nat) :
    (m.runFor fuel).1.OnCourse program code := by
  induction fuel generalizing m with
  | zero => exact h
  | succ fuel ih =>
    have hnext := h.step hkeeps
    cases hstep : m.step with
    | mk next stop =>
      rw [hstep] at hnext
      cases stop with
      | none => rw [runFor_succ hstep]; exact ih hnext
      | some stop => rw [runFor_stop hstep]; exact hnext

end Steps

/-- A machine accepts a steady program, and at each instruction it comes to its cursor is where
the moves written before that instruction take it. -/
theorem cursor_eq_drift (h : Steady program) (options : MachineOptions) :
    ∃ m, load program options = .ok m ∧
      ∀ fuel, (m.runFor fuel).1.cursor = drift (program.take (m.runFor fuel).1.pc) := by
  obtain ⟨tree, rfl, hsteady⟩ := h
  obtain ⟨code, hlink, hcode⟩ := Fragment.exists_link_flatten tree
  refine ⟨_, by rw [load, hlink, Except.map], fun fuel => ?_⟩
  refine (OnCourse.runFor ?_ ⟨rfl, rfl⟩ fuel).cursor_eq
  intro place i hat
  have hplace : place < code.size := (Array.getElem?_eq_some_iff.mp hat).1
  exact Fragment.keepsDrift_of_placed hcode.placed hsteady [] (by simp) (Nat.zero_le _)
    (by rwa [Nat.zero_add, ← hcode.size_eq]) hat

end Machine

end Tapestry

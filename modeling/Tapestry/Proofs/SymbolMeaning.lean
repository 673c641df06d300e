import Mathlib.Data.List.SplitBy
import Tapestry.Code.Symbols
import Tapestry.Proofs.LoopRefinement
import Tapestry.Proofs.LoopSimulation

/-!
# The symbols of a program mean the program

Writing a program as symbols and reading it back changes its instructions: what has no symbol
is gone, and moves are split into unit steps and gathered again across the instructions they
came from. The two programs still run alike.

Both unfold to the same program of unit steps, one for each symbol. A run of more symbols than
a word can count wraps around, and so does the move it is gathered into.
-/

namespace Tapestry

/-! ## Moves add up -/

namespace Instruction

/-- A change of the cell adds its low byte. -/
theorem effect_moveCell (delta : Int64) (policy : EofPolicy) (s : Configuration) :
    (moveCell delta).effect policy s = some (s.setCell (s.cell + Tape.lowByte delta)) := by
  rw [Tape.add_lowByte]
  rfl

/-- A move of the cursor adds its word. -/
theorem effect_moveCursor (delta : Int64) (policy : EofPolicy) (s : Configuration) :
    (moveCursor delta).effect policy s = some { s with cursor := s.cursor + delta } := rfl

/-- Instructions made from a word that add their words up when they follow each other. -/
structure IsMove (make : Int64 → Instruction) : Prop where
  effect_zero : ∀ policy s, (make 0).effect policy s = some s
  effect_add : ∀ a b policy s,
    ((make a).effect policy s).bind ((make b).effect policy) = (make (a + b)).effect policy s

/-- Changes of the cell add up. -/
theorem isMove_moveCell : IsMove moveCell where
  effect_zero policy s := by
    have hzero : Tape.lowByte 0 = 0 := rfl
    rw [effect_moveCell, hzero, UInt8.add_zero, Configuration.setCell_cell]
  effect_add a b policy s := by
    have hadd : Tape.lowByte (a + b) = Tape.lowByte a + Tape.lowByte b := by
      simp [Tape.lowByte]
    simp only [effect_moveCell, Option.bind_some, hadd, Configuration.setCell_setCell,
      Configuration.cell_setCell, UInt8.add_assoc]

/-- Moves of the cursor add up. -/
theorem isMove_moveCursor : IsMove moveCursor where
  effect_zero policy s := by
    simp [effect_moveCursor]
  effect_add a b policy s := by
    simp [effect_moveCursor, Int64.add_assoc]

/-- Equal steps have the effect of one move over all of them. -/
theorem IsMove.effects_replicate {make : Int64 → Instruction} (h : IsMove make) (unit : Int)
    (count : Nat) (policy : EofPolicy) (s : Configuration) :
    effects policy (List.replicate count (make (.ofInt unit))) s =
      (make (.ofInt (count * unit))).effect policy s := by
  induction count generalizing s with
  | zero =>
    rw [Int.natCast_zero, Int.zero_mul]
    exact (h.effect_zero policy s).symm
  | succ count ih =>
    have hsum : Int64.ofInt ((count + 1 : Nat) * unit) = .ofInt unit + .ofInt (count * unit) := by
      rw [← Int64.ofInt_add, Int.natCast_succ, Int.add_mul, Int.one_mul, Int.add_comm]
    rw [hsum, ← h.effect_add, effects, List.replicate_succ, List.foldlM_cons]
    exact Option.bind_congr fun mid _ => ih mid

end Instruction

/-! ## Unit steps -/

namespace Symbols

/-- One instruction for each symbol of a text. -/
def units (text : Text) : List Instruction := text.flatMap fun symbol => ofRun symbol 1

/-- Texts are cut into units one after the other. -/
theorem units_append (text more : Text) : units (text ++ more) = units text ++ units more :=
  List.flatMap_append

/-- Equal move symbols are equal unit steps. -/
theorem units_replicate_eq (symbol : UInt8) (count : Nat) (unit : Instruction)
    (hunit : ofRun symbol 1 = [unit]) :
    units (List.replicate count symbol) = List.replicate count unit := by
  induction count with
  | zero => rfl
  | succ count ih =>
    rw [List.replicate_succ, units, List.flatMap_cons, hunit, List.replicate_succ]
    exact congrArg (List.cons unit) ih

/-- A move unfolds to as many equal steps as have its effect. -/
theorem unfolds_steps {make : Int64 → Instruction} (hmove : Instruction.IsMove make) (i : Instruction)
    (hsilent : i.op.isSilent) (hunit : ∀ delta, (make delta).op.isSilent) (count : Nat) (unit : Int)
    (hsame : ∀ policy s, (make (.ofInt (count * unit))).effect policy s = i.effect policy s) :
    Unfolds [i] (List.replicate count (make (.ofInt unit))) := by
  let move : PlainInstruction := ⟨make (.ofInt unit), Opcode.isLoop_of_isSilent (hunit _)⟩
  have hmoves : (List.replicate count move).map Subtype.val =
      List.replicate count (make (.ofInt unit)) := List.map_replicate
  rw [← hmoves, ← List.append_nil (List.map _ _)]
  refine .spread _ hsilent ?_ ?_ .nil
  · intro move' hmem
    rw [List.eq_of_mem_replicate hmem]
    exact hunit _
  · intro policy s
    rw [hmoves, hmove.effects_replicate, hsame]

/-- What is not counted unfolds to itself. -/
theorem unfolds_kept (program : List Instruction) (h : ∀ i ∈ program, i.op.isCounted = false) :
    Unfolds program program := by
  induction program with
  | nil => exact .nil
  | cons i rest ih =>
    exact .keep rfl (h i List.mem_cons_self) (ih fun j hj => h j (List.mem_cons_of_mem i hj))

/-! ## Reading unfolds to unit steps -/

/-- The instructions of a run unfold to its unit steps, however long it is. -/
theorem unfolds_ofRun (symbol : UInt8) (count : Nat) :
    Unfolds (ofRun symbol count) (units (List.replicate count symbol)) := by
  have hcell (unit : Int) : Unfolds [.moveCell (.ofInt (count * unit))]
      (List.replicate count (.moveCell (.ofInt unit))) :=
    unfolds_steps Instruction.isMove_moveCell _ rfl (fun _ => rfl) count unit fun _ _ => rfl
  have hcursor (unit : Int) : Unfolds [.moveCursor (.ofInt (count * unit))]
      (List.replicate count (.moveCursor (.ofInt unit))) :=
    unfolds_steps Instruction.isMove_moveCursor _ rfl (fun _ => rfl) count unit fun _ _ => rfl
  have hkept (unit : Instruction) (hunit : unit.op.isCounted = false) :
      Unfolds (List.replicate count unit) (List.replicate count unit) :=
    unfolds_kept _ fun i hi => by rw [List.eq_of_mem_replicate hi, hunit]
  have hforward : (count : Int) = count * 1 := (Int.mul_one _).symm
  have hbackward : -(count : Int) = count * -1 := by omega
  unfold ofRun
  split
  · rw [units_replicate_eq 43 count (.moveCell (.ofInt 1)) rfl, hforward]
    exact hcell 1
  · rw [units_replicate_eq 45 count (.moveCell (.ofInt (-1))) rfl, hbackward]
    exact hcell (-1)
  · rw [units_replicate_eq 62 count (.moveCursor (.ofInt 1)) rfl, hforward]
    exact hcursor 1
  · rw [units_replicate_eq 60 count (.moveCursor (.ofInt (-1))) rfl, hbackward]
    exact hcursor (-1)
  · rw [units_replicate_eq 46 count .print rfl]
    exact hkept _ rfl
  · rw [units_replicate_eq 44 count .read rfl]
    exact hkept _ rfl
  · rw [units_replicate_eq 91 count .loopEnter rfl]
    exact hkept _ rfl
  · rw [units_replicate_eq 93 count .loopExit rfl]
    exact hkept _ rfl
  · have hother : ofRun symbol 1 = [] := by
      rw [ofRun] <;> assumption
    have hnone : units (List.replicate count symbol) = [] := by
      rw [units, List.flatMap_eq_nil_iff]
      intro other hmem
      rw [List.eq_of_mem_replicate hmem, hother]
    rw [hnone]
    exact .nil

/-- A run of neighbours that are all equal repeats its first byte. -/
theorem eq_replicate_of_mem_splitBy (text run : Text) (h : run ∈ text.splitBy (· == ·)) :
    run = List.replicate run.length (run.headD 0) := by
  have hchain := List.isChain_of_mem_splitBy h
  simp only [beq_iff_eq] at hchain
  cases run with
  | nil => rfl
  | cons first rest =>
    rw [List.isChain_cons_eq_iff_eq_replicate] at hchain
    rw [List.headD_cons, List.length_cons, List.replicate_succ, ← hchain]

/-- Reading a text unfolds to one step for each of its symbols. -/
theorem unfolds_read (text : Text) : Unfolds (read text) (units text) := by
  have hruns (runs : List Text) (hequal : ∀ run ∈ runs, run = List.replicate run.length (run.headD 0)) :
      Unfolds (runs.flatMap fun run => ofRun (run.headD 0) run.length) (units runs.flatten) := by
    induction runs with
    | nil => exact .nil
    | cons run runs ih =>
      rw [List.flatMap_cons, List.flatten_cons, units_append]
      refine .append ?_ (ih fun other hother => hequal other (List.mem_cons_of_mem run hother))
      have hrun := unfolds_ofRun (run.headD 0) run.length
      rwa [← hequal run List.mem_cons_self] at hrun
  have hread := hruns (text.splitBy (· == ·)) (eq_replicate_of_mem_splitBy text)
  rwa [List.flatten_splitBy] at hread

/-! ## Writing unfolds to unit steps -/

/-- A word that has a positive counterpart is as many steps in its direction as it is written
with. -/
theorem count_mul_sign (arg : Int64) (h : arg ≠ Int64.minValue) :
    (count arg * (if arg < 0 then -1 else 1) : Int) = arg.toInt := by
  have hlow := arg.le_toInt
  have hleast : arg.toInt ≠ -2 ^ 63 := fun heq => h (Int64.toInt_inj.mp heq)
  unfold count
  by_cases hneg : arg < 0
  · have hlt : arg.toInt < 0 := Int64.lt_iff_toInt_lt.mp hneg
    have hflip : (-arg).toInt = -arg.toInt := by
      rw [Int64.toInt_neg, Int.bmod_eq_of_le (by omega) (by omega)]
    rw [if_pos hneg, if_pos hneg, hflip]
    omega
  · have hge : ¬arg.toInt < 0 := fun hlt => hneg (Int64.lt_iff_toInt_lt.mpr hlt)
    rw [if_neg hneg, if_neg hneg]
    omega

/-- A word that has a positive counterpart is made up of as many unit steps as it is written
with. -/
theorem ofInt_count (arg : Int64) (h : arg ≠ Int64.minValue) :
    Int64.ofInt (count arg * (if arg < 0 then -1 else 1)) = arg := by
  rw [count_mul_sign arg h, Int64.ofInt_toInt]

/-- The cells do not notice the least word: it is written without symbols and adds nothing. -/
theorem effect_moveCell_count (arg : Int64) (policy : EofPolicy) (s : Configuration) :
    (Instruction.moveCell (.ofInt (count arg * (if arg < 0 then -1 else 1)))).effect policy s =
      (Instruction.moveCell arg).effect policy s := by
  by_cases h : arg = Int64.minValue
  · have hbyte : Tape.lowByte (.ofInt (count arg * (if arg < 0 then -1 else 1))) = Tape.lowByte arg := by
      subst h
      decide
    rw [Instruction.effect_moveCell, Instruction.effect_moveCell, hbyte]
  · rw [ofInt_count arg h]

/-- The symbols of a move are unit steps in its direction. -/
theorem units_ofInstruction {make : Int64 → Instruction} (i : Instruction) (forward backward : UInt8)
    (hcounted : i.op.isCounted) (hforward : i.op.symbol? = some forward)
    (hbackward : i.op.negative? = some backward) (hup : ofRun forward 1 = [make (.ofInt 1)])
    (hdown : ofRun backward 1 = [make (.ofInt (-1))]) :
    units (ofInstruction i) =
      List.replicate (count i.arg) (make (.ofInt (if i.arg < 0 then -1 else 1))) := by
  rw [ofInstruction, if_pos hcounted]
  by_cases hneg : i.arg < 0
  · rw [if_pos hneg, if_pos hneg, hbackward]
    exact units_replicate_eq backward _ _ hdown
  · rw [if_neg hneg, if_neg hneg, hforward]
    exact units_replicate_eq forward _ _ hup

/-- An instruction unfolds to the steps of its symbols, unless it moves the cursor by the least
word. -/
theorem unfolds_ofInstruction (i : Instruction) (h : i.op = .moveCursor → i.arg ≠ Int64.minValue) :
    Unfolds [i] (units (ofInstruction i)) := by
  obtain ⟨op, arg, comment⟩ := i
  cases op with
  | nop | undefined rest => exact .spread [] rfl (by simp) (fun _ _ => rfl) .nil
  | print | read | loopEnter | loopExit => exact .keep rfl rfl .nil
  | moveCell =>
    rw [units_ofInstruction _ 43 45 rfl rfl rfl rfl rfl]
    exact unfolds_steps Instruction.isMove_moveCell _ rfl (fun _ => rfl) _ _
      (effect_moveCell_count arg)
  | moveCursor =>
    rw [units_ofInstruction _ 62 60 rfl rfl rfl rfl rfl]
    refine unfolds_steps Instruction.isMove_moveCursor _ rfl (fun _ => rfl) _ _ fun policy s => ?_
    rw [ofInt_count arg (h rfl)]
    rfl

/-- A program unfolds to one step for each of the symbols it is written with. -/
theorem unfolds_write (program : List Instruction)
    (h : ∀ i ∈ program, i.op = .moveCursor → i.arg ≠ Int64.minValue) :
    Unfolds program (units (write program)) := by
  induction program with
  | nil => exact .nil
  | cons i rest ih =>
    rw [write, List.flatMap_cons, units_append]
    exact (unfolds_ofInstruction i (h i List.mem_cons_self)).append
      (ih fun j hj => h j (List.mem_cons_of_mem i hj))

end Symbols

/-! ## Programs that run alike -/

namespace Machine

/-- Programs accepted alike whose runs from memory halt alike and write the same. -/
structure RunAlike (program other : List Instruction) : Prop where
  accepted : ∀ input policy, (load program (fromMemory input policy)).isOk =
    (load other (fromMemory input policy)).isOk
  halts : ∀ input policy m m', load program (fromMemory input policy) = .ok m →
    load other (fromMemory input policy) = .ok m' → ∀ t, m.HaltsShowing t ↔ m'.HaltsShowing t
  written : ∀ input policy m m', load program (fromMemory input policy) = .ok m →
    load other (fromMemory input policy) = .ok m' → ∀ output, m.HasWritten output ↔ m'.HasWritten output

namespace RunAlike

/-- Programs that run alike do so both ways. -/
theorem symm {program other : List Instruction} (h : RunAlike program other) : RunAlike other program where
  accepted input policy := (h.accepted input policy).symm
  halts input policy m m' hm hm' t := (h.halts input policy m' m hm' hm t).symm
  written input policy m m' hm hm' output := (h.written input policy m' m hm' hm output).symm

/-- Programs that run like a third run alike. -/
theorem trans {program middle other : List Instruction} (h : RunAlike program middle)
    (h' : RunAlike middle other) : RunAlike program other := by
  have hmiddle (input : List UInt8) (policy : EofPolicy) (m : Machine)
      (hm : load program (fromMemory input policy) = .ok m) :
      ∃ mid, load middle (fromMemory input policy) = .ok mid := by
    have haccepted := h.accepted input policy
    rw [hm] at haccepted
    cases hmid : load middle (fromMemory input policy) with
    | error unbalanced => simp [hmid, Except.isOk, Except.toBool] at haccepted
    | ok mid => exact ⟨mid, rfl⟩
  refine ⟨fun input policy => (h.accepted input policy).trans (h'.accepted input policy), ?_, ?_⟩
  · intro input policy m m' hm hm' t
    obtain ⟨mid, hmid⟩ := hmiddle input policy m hm
    exact (h.halts input policy m mid hm hmid t).trans (h'.halts input policy mid m' hmid hm' t)
  · intro input policy m m' hm hm' output
    obtain ⟨mid, hmid⟩ := hmiddle input policy m hm
    exact (h.written input policy m mid hm hmid output).trans
      (h'.written input policy mid m' hmid hm' output)

end RunAlike

/-- A machine accepts the programs that close their loops. -/
theorem isOk_load (program : List Instruction) (options : MachineOptions) :
    (load program options).isOk = Brackets.closes 0 program := by
  have hlink : (Brackets.link program).isOk = Brackets.closes 0 program :=
    Brackets.isOk_linkFrom program 0 [] _
  rw [← hlink, load]
  cases Brackets.link program <;> rfl

section Simulated

variable {tree other : List Fragment} {code code' : Array LinkedInstruction} {policy : EofPolicy}
  {s : Configuration} {m m' : Machine}

/-- A machine halts like one whose tree its own simulates. -/
theorem haltsShowing_of_simulates (hsim : Fragment.Simulates tree other)
    (hcode : Fragment.IsCode code tree) (h : m.Shows code policy 0 s)
    (hcode' : Fragment.IsCode code' other) (h' : m'.Shows code' policy 0 s) (t : Configuration)
    (ht : m.HaltsShowing t) : m'.HaltsShowing t := by
  rw [halts_iff_runs hcode h] at ht
  rw [halts_iff_runs hcode' h']
  rcases ht with hruns | hruns
  · obtain ⟨t', hruns', rfl⟩ := hsim _ _ _ _ hruns
    exact .inl hruns'
  · obtain ⟨t', hruns', rfl⟩ := hsim _ _ _ _ hruns
    exact .inr hruns'

/-- A machine writes like one whose tree its own simulates. -/
theorem hasWritten_of_simulates (hsim : Fragment.Simulates tree other)
    (hcode : Fragment.IsCode code tree) (h : m.Shows code policy 0 s)
    (hcode' : Fragment.IsCode code' other) (h' : m'.Shows code' policy 0 s) (output : List UInt8)
    (hwritten : m.HasWritten output) : m'.HasWritten output := by
  rw [hasWritten_iff_runs hcode h] at hwritten
  rw [hasWritten_iff_runs hcode' h']
  obtain ⟨exit, t, hruns, rfl⟩ := hwritten
  obtain ⟨t', hruns', hagree⟩ := hsim _ _ _ _ hruns
  exact ⟨exit, t', hruns', hagree.output_eq.symm⟩

end Simulated

/-- A program runs like what it unfolds to. -/
theorem runAlike_of_unfolds {program other : List Instruction} (h : Unfolds program other) :
    RunAlike program other := by
  have htrees (input : List UInt8) (policy : EofPolicy) (m m' : Machine)
      (hm : load program (fromMemory input policy) = .ok m)
      (hm' : load other (fromMemory input policy) = .ok m') :
      (∀ t, m.HaltsShowing t ↔ m'.HaltsShowing t) ∧ ∀ output, m.HasWritten output ↔ m'.HasWritten output := by
    obtain ⟨tree, code, rfl, hcode, hshows⟩ := exists_placed_of_load hm
    obtain ⟨tree', code', rfl, hcode', hshows'⟩ := exists_placed_of_load hm'
    obtain ⟨_, hsame, hsim, hback⟩ := h.exists_tree
    obtain rfl := Fragment.flatten_injective hsame
    refine ⟨fun t => ⟨?_, ?_⟩, fun output => ⟨?_, ?_⟩⟩
    · exact haltsShowing_of_simulates hsim hcode hshows hcode' hshows' t
    · exact haltsShowing_of_simulates hback hcode' hshows' hcode hshows t
    · exact hasWritten_of_simulates hsim hcode hshows hcode' hshows' output
    · exact hasWritten_of_simulates hback hcode' hshows' hcode hshows output
  refine ⟨fun input policy => ?_, fun input policy m m' hm hm' => (htrees input policy m m' hm hm').1,
    fun input policy m m' hm hm' => (htrees input policy m m' hm hm').2⟩
  rw [isOk_load, isOk_load, h.closes_eq]

/-- A run from memory comes to an end exactly if it halts showing something. -/
theorem run_isSome_iff {program : List Instruction} {input : List UInt8} {policy : EofPolicy}
    {m : Machine} (hload : load program (fromMemory input policy) = .ok m) :
    m.run.isSome ↔ ∃ t, m.HaltsShowing t := by
  rw [Option.isSome_iff_exists]
  constructor
  · rintro ⟨⟨last, ending⟩, hrun⟩
    obtain rfl := ending_eq_halted hload hrun
    exact ⟨last.configuration, last, hrun, rfl⟩
  · rintro ⟨t, last, hrun, -⟩
    exact ⟨_, hrun⟩

/-- Writing a program as symbols and reading it back keeps its meaning, as long as no cursor
moves by the least word. Both programs are accepted or neither is; both runs come to an end or
neither does; they end with the same output, cells, cursor and remaining input; and whatever
one has written at some time, the other has at some time. -/
theorem read_write_keeps_meaning (program : List Instruction)
    (hleast : ∀ i ∈ program, i.op = .moveCursor → i.arg ≠ Int64.minValue)
    (input : List UInt8) (policy : EofPolicy) :
    (load program (fromMemory input policy)).isOk =
        (load (Symbols.read (Symbols.write program)) (fromMemory input policy)).isOk ∧
      ∀ m m', load program (fromMemory input policy) = .ok m →
        load (Symbols.read (Symbols.write program)) (fromMemory input policy) = .ok m' →
        (m.run.isSome ↔ m'.run.isSome) ∧ (∀ t, m.HaltsShowing t ↔ m'.HaltsShowing t) ∧
          ∀ output, m.HasWritten output ↔ m'.HasWritten output := by
  have halike : RunAlike program (Symbols.read (Symbols.write program)) :=
    (runAlike_of_unfolds (Symbols.unfolds_write program hleast)).trans
      (runAlike_of_unfolds (Symbols.unfolds_read (Symbols.write program))).symm
  refine ⟨halike.accepted input policy, fun m m' hm hm' => ?_⟩
  have hhalts := halike.halts input policy m m' hm hm'
  refine ⟨?_, hhalts, halike.written input policy m m' hm hm'⟩
  rw [run_isSome_iff hm, run_isSome_iff hm']
  exact exists_congr hhalts

/-- Nine instructions come back as five: two moves join across a `nop`, and an undefined
operation in the loop and an addition of the least word are gone. -/
theorem read_write_keeps_meaning_countdown :
    ∃ program : List Instruction, program.length = 9 ∧
      Symbols.read (Symbols.write program) = [.moveCell 3, .loopEnter, .print, .moveCell (-1), .loopExit] ∧
      ∃ m m', load program (fromMemory [] .zero) = .ok m ∧
        load (Symbols.read (Symbols.write program)) (fromMemory [] .zero) = .ok m' ∧
        ∀ t, m.HaltsShowing t ↔ m'.HaltsShowing t := by
  let program : List Instruction :=
    [.moveCell 2, .nop "count", ⟨.moveCell, 1, "more"⟩, .loopEnter, .print, ⟨.undefined 3, 7, []⟩,
      .moveCell (-1), .loopExit, .moveCell Int64.minValue]
  have hback : Symbols.read (Symbols.write program) =
      [.moveCell 3, .loopEnter, .print, .moveCell (-1), .loopExit] := by decide
  obtain ⟨m, hm⟩ : ∃ m, load program (fromMemory [] .zero) = .ok m := ⟨_, rfl⟩
  obtain ⟨m', hm'⟩ : ∃ m', load (Symbols.read (Symbols.write program)) (fromMemory [] .zero) = .ok m' := by
    rw [hback]
    exact ⟨_, rfl⟩
  have hkeeps := (read_write_keeps_meaning program (by decide) [] .zero).2 m m' hm hm'
  exact ⟨program, rfl, hback, m, m', hm, hm', hkeeps.2.1⟩

end Machine

end Tapestry

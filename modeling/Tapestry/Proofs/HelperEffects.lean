import Tapestry.Builtin
import Tapestry.Proofs.LoopRefinement
import Tapestry.Proofs.LoopSimulation

/-!
# What the address helpers compute

A helper goes from cell 0 to a cell, acts there, and comes back. What the body of its loop does in
one turn is to add a fixed amount to every cell, zero for most of them. A loop that takes one from
the cell it tests, or adds one to it, ends when the cell is zero, and has then added the amounts as
often as it turned. A loop that leaves its cell alone never ends, unless the cell is zero at first.
-/

namespace Tapestry

/-- The low byte of a word made from an integer is the integer modulo 256. -/
theorem Tape.lowByte_ofInt (n : Int) : lowByte (.ofInt n) = .ofInt n := by
  rw [lowByte_eq_ofInt, ← UInt8.toNat_inj]
  have hsize : Int64.size = 18446744073709551616 := rfl
  simp only [UInt8.ofInt, UInt8.toNat_ofNat', Int64.toInt_ofInt, Int.bmod_def, hsize]
  split <;> omega

/-! ## Adding to cells -/

namespace Configuration

/-- Put the cursor on a cell. -/
def goTo (s : Configuration) (cell : Int64) : Configuration := { s with cursor := cell }

/-- Put a value into a cell. -/
def put (s : Configuration) (cell : Int64) (value : UInt8) : Configuration :=
  { s with cells := Function.update s.cells cell value }

/-- Add an amount to a cell, modulo 256. -/
def raise (s : Configuration) (cell : Int64) (amount : UInt8) : Configuration :=
  s.put cell (s.cells cell + amount)

/-- Add an amount to every cell. -/
def addCells (s : Configuration) (amount : Int64 → UInt8) : Configuration :=
  { s with cells := fun c => s.cells c + amount c }

/-- An amount for one cell, nothing for the others. -/
def only (cell : Int64) (amount : UInt8) (c : Int64) : UInt8 := if c = cell then amount else 0

@[simp] theorem only_self (cell : Int64) (amount : UInt8) : only cell amount cell = amount :=
  if_pos rfl

/-- The other cells get nothing. -/
theorem only_of_ne {cell c : Int64} (h : c ≠ cell) (amount : UInt8) : only cell amount c = 0 :=
  if_neg h

/-- Amounts that are added in turn are added together. -/
theorem addCells_addCells (s : Configuration) (first second : Int64 → UInt8) :
    (s.addCells first).addCells second = s.addCells fun c => first c + second c := by
  unfold addCells
  congr 1
  exact funext fun c => UInt8.add_assoc _ _ _

/-- Adding nothing changes nothing. -/
theorem addCells_zero (s : Configuration) : (s.addCells fun _ => 0) = s := by
  unfold addCells
  congr 1
  exact funext fun c => UInt8.add_zero _

/-- Raising one cell adds nothing to the others. -/
theorem raise_eq_addCells (s : Configuration) (cell : Int64) (amount : UInt8) :
    s.raise cell amount = s.addCells (only cell amount) := by
  unfold addCells raise put
  congr 1
  funext c
  by_cases hc : c = cell
  · simp [hc]
  · simp [only_of_ne hc, hc]

/-- Raising a cell raises no other. -/
theorem cells_raise (s : Configuration) (cell : Int64) (amount : UInt8) (c : Int64) :
    (s.raise cell amount).cells c = s.cells c + only cell amount c := by
  rw [raise_eq_addCells]
  rfl

/-- Putting a value in a cell leaves the others. -/
theorem cells_put_of_ne (s : Configuration) {cell c : Int64} (h : c ≠ cell) (value : UInt8) :
    (s.put cell value).cells c = s.cells c := by
  change Function.update s.cells cell value c = s.cells c
  rw [Function.update_of_ne h]

/-- A multiple of an amount for one cell is an amount for that cell. -/
theorem mul_only (factor amount : UInt8) (cell c : Int64) :
    factor * only cell amount c = only cell (factor * amount) c := by
  unfold only
  split
  · rfl
  · exact UInt8.mul_zero

end Configuration

namespace Instruction

open Tapestry.Configuration

/-- A cell move adds the low byte of its argument to the current cell. -/
theorem effect_moveCell_goTo (policy : EofPolicy) (delta : Int64) (s : Configuration) (cell : Int64) :
    (moveCell delta).effect policy (s.goTo cell) =
      some ((s.raise cell (Tape.lowByte delta)).goTo cell) := by
  rw [raise, Tape.add_lowByte]
  rfl

/-- A cursor move goes from one cell to another. -/
theorem effect_moveCursor_goTo (policy : EofPolicy) (source target : Int) (s : Configuration) :
    (moveCursor (.ofInt (target - source))).effect policy (s.goTo (.ofInt source)) =
      some (s.goTo (.ofInt target)) := by
  have hcursor : Int64.ofInt source + Int64.ofInt (target - source) = .ofInt target := by
    rw [← Int64.ofInt_add, Int.add_comm, Int.sub_add_cancel]
  rw [← hcursor]
  rfl

/-- Instructions take effect in turn. -/
theorem effects_cons (policy : EofPolicy) (i : Instruction) (rest : List Instruction)
    (s : Configuration) :
    effects policy (i :: rest) s = (i.effect policy s).bind (effects policy rest) := rfl

/-- The empty program has no effect. -/
theorem effects_nil (policy : EofPolicy) (s : Configuration) : effects policy [] s = some s := rfl

end Instruction

/-! ## Loops that add -/

/-- A byte that is not zero is one more than its predecessor. -/
theorem toNat_sub_one {byte : UInt8} (h : byte ≠ 0) : (byte - 1).toNat + 1 = byte.toNat := by
  have hne : byte.toNat ≠ 0 := fun hzero => h (UInt8.toNat_inj.mp hzero)
  have hle : 1 ≤ byte := by
    rw [UInt8.le_iff_toNat_le]
    change 1 ≤ byte.toNat
    omega
  rw [UInt8.toNat_sub_of_le _ _ hle]
  change byte.toNat - 1 + 1 = byte.toNat
  omega

namespace Fragment

open Tapestry.Configuration

/-- Silent instructions that add an amount to every cell when the cursor is on `home`, and leave
all else as it was. -/
structure Adds (moves : List PlainInstruction) (home : Int64) (amount : Int64 → UInt8) : Prop where
  silent : ∀ move ∈ moves, move.val.op.isSilent
  effects_eq : ∀ policy (s : Configuration),
    Instruction.effects policy (moves.map Subtype.val) (s.goTo home) =
      some ((s.addCells amount).goTo home)

/-- A fragment takes one configuration to another: what follows it goes on from there. -/
def Takes (policy : EofPolicy) (fragment : Fragment) (s mid : Configuration) : Prop :=
  ∀ rest exit t, Runs policy rest mid exit t → Runs policy (fragment :: rest) s exit t

section Loops

variable {moves : List PlainInstruction} {home : Int64} {amount : Int64 → UInt8}
  {enter : EnterInstruction} {last : ExitInstruction} {policy : EofPolicy}

/-- A loop that adds one to the cell it tests, or takes one away, ends having added its amounts as
often as it turned. -/
theorem takes_of_adds (hadds : Adds moves home amount) (hunit : amount home * amount home = 1)
    (s : Configuration) :
    Takes policy (.loop enter last (after moves [])) (s.goTo home)
      ((s.addCells fun c => -amount home * s.cells home * amount c).goTo home) := by
  intro rest exit t h
  -- The number of turns still to come.
  generalize hturns : (-amount home * s.cells home).toNat = turns
  induction turns generalizing s with
  | zero =>
    have hproduct : -amount home * s.cells home = 0 := UInt8.toNat_inj.mp hturns
    have hzero : s.cells home = 0 := by grind
    refine .skip hzero ?_
    simpa only [hproduct, UInt8.zero_mul, addCells_zero] using h
  | succ turns ih =>
    have hne : -amount home * s.cells home ≠ 0 := by
      intro hproduct
      rw [hproduct] at hturns
      cases hturns
    have hcell : s.cells home ≠ 0 := by
      intro hzero
      exact hne (by rw [hzero, UInt8.mul_zero])
    -- The amount is its own inverse, so a turn leaves one turn less.
    have hless : -amount home * (s.addCells amount).cells home = -amount home * s.cells home - 1 := by
      change -amount home * (s.cells home + amount home) = _
      grind
    refine .again hcell (.after moves (hadds.effects_eq policy s) .finish)
      (ih (s.addCells amount) ?_ ?_)
    · have hsum (c : Int64) : amount c + -amount home * (s.addCells amount).cells home * amount c =
          -amount home * s.cells home * amount c := by
        rw [hless]
        grind
      simpa only [addCells_addCells, hsum] using h
    · rw [hless]
      have := toNat_sub_one hne
      omega

/-- A loop that leaves the cell it tests alone never ends once it has begun. -/
theorem eq_cut_of_adds (hadds : Adds moves home amount) (hstill : amount home = 0)
    {s t : Configuration} (hcell : s.cells home ≠ 0) {rest : List Fragment} {exit : Exit}
    (h : Runs policy (.loop enter last (after moves []) :: rest) (s.goTo home) exit t) :
    exit = .cut := by
  generalize htree : Fragment.loop enter last (after moves []) :: rest = tree at h
  generalize hstart : s.goTo home = start at h
  induction h generalizing s with
  | finish | plain | starve => cases htree
  | cut => rfl
  | skip cell_eq =>
    subst hstart
    exact absurd cell_eq hcell
  | again _ inside _ _ ih =>
    cases htree
    subst hstart
    rcases inside.of_after moves hadds.silent with ⟨next, hnext, hend⟩ | ⟨hcut, -⟩
    · cases hend
      have hnext := Option.some.inj ((hadds.effects_eq policy s).symm.trans hnext)
      refine ih ?_ rfl hnext
      change s.cells home + amount home ≠ 0
      rwa [hstill, UInt8.add_zero]
    · cases hcut
  | inside _ inside exit_ne =>
    cases htree
    rcases inside.of_after moves hadds.silent with ⟨next, -, hend⟩ | ⟨hcut, -⟩
    · cases hend with
      | finish => exact absurd rfl exit_ne
      | cut => rfl
    · exact hcut

end Loops

/-! ## Going to a cell and coming back -/

/-- Go to a cell from cell 0, do something there, and come back. -/
def around (cell : Int) (core : Fragment) : List Fragment :=
  [.plain ⟨.moveCursor (.ofInt cell), rfl⟩, core, .plain ⟨.moveCursor (.ofInt (-cell)), rfl⟩]

section Around

variable {policy : EofPolicy} {cell : Int} {core : Fragment} {s mid t : Configuration} {exit : Exit}

/-- The cursor goes to a cell. -/
theorem effect_go (policy : EofPolicy) (cell : Int) (s : Configuration) :
    (Instruction.moveCursor (.ofInt cell)).effect policy (s.goTo 0) = some (s.goTo (.ofInt cell)) := by
  have h := Instruction.effect_moveCursor_goTo policy 0 cell s
  rwa [Int.sub_zero] at h

/-- The cursor goes back. -/
theorem effect_back (policy : EofPolicy) (cell : Int) (s : Configuration) :
    (Instruction.moveCursor (.ofInt (-cell))).effect policy (s.goTo (.ofInt cell)) =
      some (s.goTo 0) := by
  have h := Instruction.effect_moveCursor_goTo policy cell 0 s
  rwa [Int.zero_sub] at h

/-- What a fragment does at a cell is done from cell 0. -/
theorem runs_around (h : Takes policy core (s.goTo (.ofInt cell)) (mid.goTo (.ofInt cell))) :
    Runs policy (around cell core) (s.goTo 0) .finished (mid.goTo 0) :=
  .plain (effect_go policy cell s) (h _ _ _ (.plain (effect_back policy cell mid) .finish))

/-- A fragment that never ends at a cell never ends from cell 0. -/
theorem eq_cut_of_around
    (hcore : ∀ rest exit t, Runs policy (core :: rest) (s.goTo (.ofInt cell)) exit t → exit = .cut)
    (h : Runs policy (around cell core) (s.goTo 0) exit t) : exit = .cut := by
  cases h with
  | cut => rfl
  | starve effect_eq => simp [effect_go] at effect_eq
  | plain effect_eq behind =>
    obtain rfl := Option.some.inj ((effect_go policy cell s).symm.trans effect_eq)
    exact hcore _ _ _ behind

end Around

/-- A plain instruction takes a configuration where its effect does. -/
theorem takes_plain {policy : EofPolicy} {i : PlainInstruction} {s mid : Configuration}
    (h : i.val.effect policy s = some mid) : Takes policy (.plain i) s mid :=
  fun _ _ _ behind => .plain h behind

end Fragment

/-! ## Calls of helpers -/

/-- The primitive an action emits. -/
def Action.primitive? : Action → Option Primitive
  | .primitive emitted => some emitted
  | _ => none

/-- The primitive of an action is what the action does. -/
theorem Action.eq_of_primitive? {action : Action} {primitive : Primitive}
    (h : action.primitive? = some primitive) : action = .primitive primitive := by
  cases action with
  | primitive other => exact congrArg Action.primitive (Option.some.inj h)
  | _ => cases h

/-- The cells that resolved addresses name. -/
structure Address where
  index : Int
  nonneg : 0 ≤ index
  le_greatest : index ≤ Number.greatest

namespace Address

/-- The cell on the tape. -/
def cell (address : Address) : Int64 := .ofInt address.index

/-- The cell of an address has its index. -/
theorem toInt_cell (address : Address) : address.cell.toInt = address.index := by
  have hle := address.le_greatest
  have hnonneg := address.nonneg
  unfold Number.greatest at hle
  exact Int64.toInt_ofInt_of_le (by omega) (by omega)

/-- Different addresses are different cells. -/
theorem cell_inj {a b : Address} : a.cell = b.cell ↔ a = b := by
  constructor
  · intro h
    have hindex : a.index = b.index := by rw [← toInt_cell, ← toInt_cell, h]
    cases a
    cases b
    cases hindex
    rfl
  · exact congrArg cell

end Address

/-- A call of an address helper with the values of its arguments. -/
inductive HelperCall where
  | add (cell : Address) (value : Int)
  | null (cell : Address)
  | print (cell : Address)
  | read (cell : Address)
  | mov (target source : Address)
  | mov2 (first second source : Address)

namespace HelperCall

variable {bindings : Bindings}

open Tapestry.Configuration Fragment

/-- The name of the built-in function. -/
def name : HelperCall → Text
  | add .. => "_add"
  | null .. => "_null"
  | print .. => "_print"
  | read .. => "_read"
  | mov .. => "_mov"
  | mov2 .. => "_mov2"

/-- What is bound to each parameter. -/
def arguments : HelperCall → List (Text × Datum)
  | add cell value => [("addr", .cell cell.index), ("value", .int value)]
  | null cell | print cell | read cell => [("addr", .cell cell.index)]
  | mov target source => [("to", .cell target.index), ("from", .cell source.index)]
  | mov2 first second source =>
    [("to1", .cell first.index), ("to2", .cell second.index), ("from", .cell source.index)]

/-- Bindings that hold the arguments of a call, whatever words they were written as. -/
def Binds (call : HelperCall) (bindings : Bindings) : Prop :=
  bindings.map (fun v => (v.name, v.value.datum)) = call.arguments

/-- The cell a helper goes to. -/
def home : HelperCall → Address
  | add cell _ | null cell | print cell | read cell => cell
  | mov _ source | mov2 _ _ source => source

/-- What the body of a helper's loop does in one turn. -/
def turn : HelperCall → List PlainInstruction
  | add .. | print .. | read .. => []
  | null .. => [⟨.moveCell (-1), rfl⟩]
  | mov target source =>
    [⟨.moveCell (-1), rfl⟩, ⟨.moveCursor (.ofInt (target.index - source.index)), rfl⟩,
      ⟨.moveCell 1, rfl⟩, ⟨.moveCursor (.ofInt (source.index - target.index)), rfl⟩]
  | mov2 first second source =>
    [⟨.moveCell (-1), rfl⟩, ⟨.moveCursor (.ofInt (first.index - source.index)), rfl⟩,
      ⟨.moveCell 1, rfl⟩, ⟨.moveCursor (.ofInt (second.index - first.index)), rfl⟩,
      ⟨.moveCell 1, rfl⟩, ⟨.moveCursor (.ofInt (source.index - second.index)), rfl⟩]

/-- What a helper does at its cell. -/
def core : HelperCall → Fragment
  | add _ value => .plain ⟨.moveCell (.ofInt value), rfl⟩
  | print _ => .plain ⟨.print, rfl⟩
  | read _ => .plain ⟨.read, rfl⟩
  | call => .loop ⟨.loopEnter, rfl⟩ ⟨.loopExit, rfl⟩ (after call.turn [])

/-- The instructions of a call. -/
def code (call : HelperCall) : List Instruction := flatten (around call.home.index call.core)

/-- The data bound to a name decide what an integer or a cell of that name is. -/
theorem get?_of_arguments {arguments : List (Text × Datum)}
    (h : bindings.map (fun v => (v.name, v.value.datum)) = arguments) (name : Text) :
    (Bindings.get? bindings name).map (·.value.datum) =
      (arguments.find? (·.1 == name)).map Prod.snd := by
  subst h
  simp [Bindings.get?, List.find?_map, Function.comp_def]

/-- A cell among the arguments is looked up under its name. -/
theorem cell?_of_arguments {arguments : List (Text × Datum)}
    (h : bindings.map (fun v => (v.name, v.value.datum)) = arguments) (name : Text) {index : Int}
    (hfind : (arguments.find? (·.1 == name)).map Prod.snd = some (.cell index)) :
    Bindings.cell? bindings name = some index := by
  rw [← get?_of_arguments h, Option.map_eq_some_iff] at hfind
  obtain ⟨v, hget, hdatum⟩ := hfind
  simp [Bindings.cell?, hget, hdatum]

/-- A number among the arguments is looked up under its name. -/
theorem int?_of_arguments {arguments : List (Text × Datum)}
    (h : bindings.map (fun v => (v.name, v.value.datum)) = arguments) (name : Text) {value : Int}
    (hfind : (arguments.find? (·.1 == name)).map Prod.snd = some (.int value)) :
    Bindings.int? bindings name = some value := by
  rw [← get?_of_arguments h, Option.map_eq_some_iff] at hfind
  obtain ⟨v, hget, hdatum⟩ := hfind
  simp [Bindings.int?, hget, hdatum]

/-- The primitive behind a call. -/
def primitive : HelperCall → Primitive
  | add .. => .add
  | null .. => .null
  | print .. => .printAt
  | read .. => .readAt
  | mov .. => .mov
  | mov2 .. => .mov2

/-- A built-in function of the name is the primitive. -/
theorem action_of_name (call : HelperCall) {function : Function}
    (hbuiltin : function ∈ Function.builtins) (hname : function.name = call.name) :
    function.action = .primitive call.primitive := by
  have haction : ∀ function ∈ Function.builtins,
      ∀ entry ∈ [(Text.ofString "_add", Primitive.add), (Text.ofString "_null", Primitive.null),
        (Text.ofString "_print", Primitive.printAt), (Text.ofString "_read", Primitive.readAt),
        (Text.ofString "_mov", Primitive.mov), (Text.ofString "_mov2", Primitive.mov2)],
      function.name = entry.1 → function.action.primitive? = some entry.2 := by decide
  refine Action.eq_of_primitive? (haction function hbuiltin (call.name, call.primitive) ?_ hname)
  cases call with
  | _ => simp [name, primitive]

/-- Bindings of a call make the primitive emit its instructions. -/
theorem code?_of_binds (call : HelperCall) (hbinds : call.Binds bindings) :
    call.primitive.code? bindings = some call.code := by
  cases call with
  | add cell value =>
    have hcell := cell?_of_arguments hbinds "addr" rfl
    have hvalue := int?_of_arguments hbinds "value" rfl
    simp [primitive, Primitive.code?, hcell, hvalue, code, around, core, home, Primitive.around]
  | null cell | print cell | read cell =>
    have hcell := cell?_of_arguments hbinds "addr" rfl
    simp [primitive, Primitive.code?, hcell, code, around, core, home, turn, Primitive.around]
  | mov target source =>
    have htarget := cell?_of_arguments hbinds "to" rfl
    have hsource := cell?_of_arguments hbinds "from" rfl
    simp [primitive, Primitive.code?, htarget, hsource, code, around, core, home, turn,
      Primitive.around]
  | mov2 first second source =>
    have hfirst := cell?_of_arguments hbinds "to1" rfl
    have hsecond := cell?_of_arguments hbinds "to2" rfl
    have hsource := cell?_of_arguments hbinds "from" rfl
    simp [primitive, Primitive.code?, hfirst, hsecond, hsource, code, around, core, home, turn,
      Primitive.around]

/-! ## What the loops add -/

/-- What one turn of a helper's loop adds to the cells. -/
def amount : HelperCall → Int64 → UInt8
  | add .. | print .. | read .. => fun _ => 0
  | null cell => only cell.cell 255
  | mov target source => fun c => only source.cell 255 c + only target.cell 1 c
  | mov2 first second source =>
    fun c => only source.cell 255 c + only first.cell 1 c + only second.cell 1 c

/-- A turn of the loop adds its amounts. -/
theorem adds_turn (call : HelperCall) : Adds call.turn call.home.cell call.amount := by
  have hdown : Tape.lowByte (-1) = 255 := rfl
  have hup : Tape.lowByte 1 = 1 := rfl
  cases call with
  | add | print | read =>
    refine ⟨fun _ hmem => (List.not_mem_nil hmem).elim, fun policy s => ?_⟩
    simp only [amount, addCells_zero]
    rfl
  | null cell =>
    refine ⟨by simp [turn, Opcode.isSilent, Instruction.moveCell], fun policy s => ?_⟩
    simp only [turn, List.map_cons, List.map_nil, Instruction.effects_cons, Instruction.effects_nil,
      Instruction.effect_moveCell_goTo, Option.bind_some, hdown, amount, home, raise_eq_addCells]
  | mov | mov2 =>
    refine ⟨by simp [turn, Opcode.isSilent, Instruction.moveCell, Instruction.moveCursor],
      fun policy s => ?_⟩
    simp only [turn, List.map_cons, List.map_nil, Instruction.effects_cons, Instruction.effects_nil,
      Instruction.effect_moveCell_goTo, Instruction.effect_moveCursor_goTo, Option.bind_some, hdown,
      hup, amount, home, Address.cell, raise_eq_addCells, addCells_addCells]

end HelperCall

namespace Machine

/-- A machine that halts and shows `t` if a condition holds, and otherwise runs on forever. -/
def EndsIf (m : Machine) (condition : Prop) (t : Configuration) : Prop :=
  (condition → m.HaltsShowing t) ∧ (¬condition → m.run = none)

/-- The options of a run from memory on a given tape. -/
def onTape (tape : Tape) (input : List UInt8) (policy : EofPolicy) : MachineOptions :=
  { input := { bytes := input }, policy, tape }

/-- A tree is loaded on a tape with the cursor on cell 0. -/
theorem exists_load_flatten (tree : List Fragment) (tape : Tape) (input : List UInt8)
    (policy : EofPolicy) :
    ∃ m code, load (Fragment.flatten tree) (onTape tape input policy) = .ok m ∧
      Fragment.IsCode code tree ∧ m.Shows code policy 0 ⟨[], tape.get, 0, input⟩ := by
  obtain ⟨code, hlink, hcode⟩ := Fragment.exists_link_flatten tree
  refine ⟨_, code, by rw [load, hlink]; rfl, hcode, ?_⟩
  exact
    { program_eq := rfl, policy_eq := rfl, limit_eq := rfl, broken_eq := rfl,
      capacity_eq := rfl, stopped_eq := rfl, pc_eq := rfl, configuration_eq := rfl }

/-- A machine whose tree can only be cut short runs on forever. -/
theorem run_eq_none {m : Machine} {tree : List Fragment} {code : Array LinkedInstruction}
    {policy : EofPolicy} {s : Configuration} (hcode : Fragment.IsCode code tree)
    (h : m.Shows code policy 0 s)
    (hcut : ∀ exit t, Fragment.Runs policy tree s exit t → exit = .cut) : m.run = none := by
  by_contra hrun
  obtain ⟨result, hresult⟩ := Option.ne_none_iff_exists'.mp hrun
  obtain ⟨fuel, hfuel, hne⟩ := (run_eq_some_iff m result).mp hresult
  obtain ⟨last, ⟨-, hruns | hruns⟩ | ⟨hrun, -⟩⟩ := runFor_cases hcode h fuel
  · cases hcut _ _ hruns
  · cases hcut _ _ hruns
  · rw [hfuel] at hrun
    exact hne (by rw [hrun])

end Machine

namespace HelperCall

open Tapestry.Configuration Fragment

/-- What the machine that runs a call does from `s`, where the cursor is on cell 0. It halts in a
configuration that differs from `s` only as told, or runs on forever. A double move to one cell
raises that cell twice. -/
def Computes (m : Machine) (s : Configuration) : HelperCall → Prop
  | add cell value => m.HaltsShowing (s.raise cell.cell (.ofInt value))
  | null cell => m.HaltsShowing (s.put cell.cell 0)
  | print cell => m.HaltsShowing { s with output := s.output ++ [s.cells cell.cell] }
  | read cell => ∀ byte rest, s.input = byte :: rest →
      m.HaltsShowing { s.put cell.cell byte with input := rest }
  | mov target source =>
    (target ≠ source →
      m.HaltsShowing ((s.raise target.cell (s.cells source.cell)).put source.cell 0)) ∧
    (target = source → m.EndsIf (s.cells source.cell = 0) s)
  | mov2 first second source =>
    (first ≠ source → second ≠ source →
      m.HaltsShowing (((s.raise first.cell (s.cells source.cell)).raise second.cell
        (s.cells source.cell)).put source.cell 0)) ∧
    ((first = source ↔ second ≠ source) → m.EndsIf (s.cells source.cell = 0) s) ∧
    (first = source → second = source → m.HaltsShowing (s.put source.cell 0))

section Running

variable {call : HelperCall} {m : Machine} {policy : EofPolicy} {s : Configuration}

/-- A machine that runs a call from a configuration with the cursor on cell 0. -/
structure Performs (m : Machine) (policy : EofPolicy) (call : HelperCall) (s : Configuration) :
    Prop where
  halts : ∀ t, Runs policy (around call.home.index call.core) (s.goTo 0) .finished t →
    m.HaltsShowing t
  forever : (∀ exit t, Runs policy (around call.home.index call.core) (s.goTo 0) exit t →
    exit = .cut) → m.run = none

/-- A helper that has no loop halts where its instruction takes it. -/
theorem Performs.halts_plain {i : PlainInstruction} {mid : Configuration}
    (h : Performs m policy call s) (hcore : call.core = .plain i)
    (heffect : i.val.effect policy (s.goTo call.home.cell) = some (mid.goTo call.home.cell)) :
    m.HaltsShowing (mid.goTo 0) := by
  refine h.halts _ (runs_around ?_)
  rw [hcore]
  exact takes_plain heffect

variable {enter : EnterInstruction} {last : ExitInstruction}

/-- A helper whose loop changes the cell it tests by one halts when that cell is zero, having
added its amounts as often as it turned. -/
theorem Performs.halts_loop (h : Performs m policy call s)
    (hcore : call.core = .loop enter last (after call.turn [])) {step turns : UInt8}
    (hstep : call.amount call.home.cell = step) (hunit : step * step = 1)
    (hturns : -step * s.cells call.home.cell = turns) {t : Configuration}
    (hzero : t = ({ s with cells := t.cells } : Configuration).goTo 0 ∧ t.cells call.home.cell = 0)
    (helse : ∀ c, c ≠ call.home.cell → s.cells c + turns * call.amount c = t.cells c) :
    m.HaltsShowing t := by
  subst hstep hturns
  have hcells : (s.addCells fun c =>
      -call.amount call.home.cell * s.cells call.home.cell * call.amount c) =
      { s with cells := t.cells } := by
    unfold addCells
    congr 1
    funext c
    by_cases hc : c = call.home.cell
    · subst hc
      rw [hzero.2]
      grind
    · exact helse c hc
  have htakes : Takes policy (.loop enter last (after call.turn [])) _ _ :=
    takes_of_adds call.adds_turn hunit s
  rw [hcells, ← hcore] at htakes
  rw [hzero.1]
  exact h.halts _ (runs_around htakes)

/-- A helper whose loop leaves the cell it tests alone halts only if that cell is zero. -/
theorem Performs.endsIf (h : Performs m policy call s)
    (hcore : call.core = .loop enter last (after call.turn []))
    (hstill : call.amount call.home.cell = 0) :
    m.EndsIf (s.cells call.home.cell = 0) (s.goTo 0) := by
  constructor
  · intro hzero
    refine h.halts _ (runs_around ?_)
    rw [hcore]
    exact fun _ _ _ behind => .skip hzero behind
  · intro hne
    refine h.forever fun exit t hruns => eq_cut_of_around ?_ hruns
    rw [hcore]
    exact fun _ _ _ hloop => eq_cut_of_adds call.adds_turn hstill hne hloop

/-- A move to another cell empties its source into it, one onto its source cannot. -/
theorem Performs.computes_mov {target source : Address}
    (h : Performs m policy (mov target source) s) : (mov target source).Computes m (s.goTo 0) := by
  refine ⟨fun hne => ?_, fun heq => ?_⟩
  · have hne : source.cell ≠ target.cell := fun heq => hne (Address.cell_inj.mp heq.symm)
    have hstep : (mov target source).amount source.cell = 255 := by
      simp only [amount, only_self, only_of_ne hne, UInt8.add_zero]
    refine h.halts_loop rfl hstep rfl (UInt8.one_mul _) ⟨rfl, Function.update_self ..⟩ ?_
    intro c (hc : c ≠ source.cell)
    simp only [cells_put_of_ne _ hc, cells_raise, amount, only_of_ne hc, UInt8.zero_add, mul_only,
      UInt8.mul_one]
    rfl
  · subst heq
    have hstill : (mov target target).amount target.cell = 0 := by
      simp only [amount, only_self]
      rfl
    exact h.endsIf rfl hstill

/-- A double move empties its source into two cells. It cannot if one of them is the source, and
if both are, its loop counts up to zero. -/
theorem Performs.computes_mov2 {first second source : Address}
    (h : Performs m policy (mov2 first second source) s) :
    (mov2 first second source).Computes m (s.goTo 0) := by
  refine ⟨fun hfirst hsecond => ?_, fun hone => ?_, fun hfirst hsecond => ?_⟩
  · have hfirst : source.cell ≠ first.cell := fun heq => hfirst (Address.cell_inj.mp heq.symm)
    have hsecond : source.cell ≠ second.cell := fun heq => hsecond (Address.cell_inj.mp heq.symm)
    have hstep : (mov2 first second source).amount source.cell = 255 := by
      simp only [amount, only_self, only_of_ne hfirst, only_of_ne hsecond, UInt8.add_zero]
    refine h.halts_loop rfl hstep rfl (UInt8.one_mul _) ⟨rfl, Function.update_self ..⟩ ?_
    intro c (hc : c ≠ source.cell)
    simp only [cells_put_of_ne _ hc, cells_raise, amount, only_of_ne hc, UInt8.zero_add,
      UInt8.mul_add, mul_only, UInt8.mul_one, UInt8.add_assoc]
    rfl
  · have hstill : (mov2 first second source).amount source.cell = 0 := by
      by_cases hfirst : first = source
      · have hsecond : source.cell ≠ second.cell :=
          fun heq => hone.mp hfirst (Address.cell_inj.mp heq.symm)
        simp only [amount, hfirst, only_self, only_of_ne hsecond]
        rfl
      · have hsecond : second = source := Classical.not_not.mp (mt hone.mpr hfirst)
        have hfirst : source.cell ≠ first.cell := fun heq => hfirst (Address.cell_inj.mp heq.symm)
        simp only [amount, hsecond, only_self, only_of_ne hfirst]
        rfl
    exact h.endsIf rfl hstill
  · subst hfirst hsecond
    have hstep : (mov2 second second second).amount second.cell = 1 := by
      simp only [amount, only_self]
      rfl
    refine h.halts_loop rfl hstep rfl rfl ⟨rfl, Function.update_self ..⟩ ?_
    intro c (hc : c ≠ second.cell)
    simp only [cells_put_of_ne _ hc, amount, only_of_ne hc, UInt8.add_zero, UInt8.mul_zero]
    rfl

/-- A machine that runs a call computes what the call says. -/
theorem Performs.computes (h : Performs m policy call s) : call.Computes m (s.goTo 0) := by
  cases call with
  | add cell value =>
    have heffect := Instruction.effect_moveCell_goTo policy (.ofInt value) s cell.cell
    rw [Tape.lowByte_ofInt] at heffect
    exact h.halts_plain rfl heffect
  | null cell =>
    refine h.halts_loop rfl (only_self ..) rfl rfl ⟨rfl, Function.update_self ..⟩ ?_
    intro c (hc : c ≠ cell.cell)
    simp only [cells_put_of_ne _ hc, amount, only_of_ne hc, UInt8.add_zero, UInt8.mul_zero]
    rfl
  | print cell =>
    have heffect : Instruction.print.effect policy (s.goTo cell.cell) =
        some (({ s with output := s.output ++ [s.cells cell.cell] } : Configuration).goTo
          cell.cell) := rfl
    exact h.halts_plain rfl heffect
  | read cell =>
    intro byte rest hinput
    have heffect : Instruction.read.effect policy (s.goTo cell.cell) =
        some (({ s.put cell.cell byte with input := rest } : Configuration).goTo cell.cell) := by
      change (s.goTo cell.cell).takeByte policy = _
      have hleft : (s.goTo cell.cell).input = byte :: rest := hinput
      unfold takeByte
      rw [hleft]
      rfl
    exact h.halts_plain rfl heffect
  | mov => exact h.computes_mov
  | mov2 => exact h.computes_mov2

end Running

/-- The code of an address helper, run without a step limit from cell 0 on any tape, computes what
the call says: it comes back to cell 0 and leaves every other cell as it was. A move onto the cell
it comes from runs on forever, unless that cell is zero. -/
theorem helpers_compute (call : HelperCall) (function : Function)
    (hbuiltin : function ∈ Function.builtins) (hname : function.name = call.name)
    (bindings : Bindings) (hbinds : call.Binds bindings) (tape : Tape) (input : List UInt8)
    (policy : EofPolicy) :
    ∃ primitive code m, function.action = .primitive primitive ∧
      primitive.code? bindings = some code ∧
      Machine.load code (Machine.onTape tape input policy) = .ok m ∧
      call.Computes m { output := [], cells := tape.get, cursor := 0, input } := by
  obtain ⟨m, code, hload, hcode, hshows⟩ :=
    Machine.exists_load_flatten (around call.home.index call.core) tape input policy
  have hperforms : Performs m policy call ⟨[], tape.get, 0, input⟩ :=
    { halts := fun t hruns => (Machine.halts_iff_runs hcode hshows t).mpr (.inl hruns)
      forever := Machine.run_eq_none hcode hshows }
  exact ⟨call.primitive, call.code, m, call.action_of_name hbuiltin hname,
    call.code?_of_binds hbinds, hload, hperforms.computes⟩

/-- A move from cell 5, which holds a 7, to cell 3. -/
theorem helpers_compute_move :
    let call : HelperCall := .mov ⟨3, by decide, by decide⟩ ⟨5, by decide, by decide⟩
    let bindings : Bindings :=
      [⟨"to", ⟨.cell 3, ⟨1, 5, ":3"⟩⟩⟩, ⟨"from", ⟨.cell 5, ⟨1, 8, ":5"⟩⟩⟩]
    let tape := Tape.empty.modify 5 fun _ => 7
    ∃ function ∈ Function.builtins, function.name = call.name ∧ call.Binds bindings ∧
      ∃ primitive code m, function.action = .primitive primitive ∧
        primitive.code? bindings = some code ∧
        Machine.load code (Machine.onTape tape [] .halt) = .ok m ∧
        call.Computes m { output := [], cells := tape.get, cursor := 0, input := [] } := by
  intro call bindings tape
  have hmem : Function.builtin "_mov" (.primitive .mov) [⟨"to", .address⟩, ⟨"from", .address⟩] ∈
      Function.builtins := by
    simp [Function.builtins]
  exact ⟨_, hmem, rfl, rfl, helpers_compute call _ hmem rfl bindings rfl tape [] .halt⟩

end HelperCall

end Tapestry

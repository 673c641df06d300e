import Tapestry.Proofs.LoopSemantics

/-!
# Trees that run alike

Two trees run alike if every run of one is matched by a run of the other that ends in the same
configuration, or, when it is cut short, has written the same. Running alike goes through
loops, so a plain instruction may be replaced by several with the same joint effect anywhere
in a tree.

On flat programs the replacement is the relation `Unfolds`: brackets, prints and reads stay
one to one, and what writes and reads nothing may become any number of moves.
-/

namespace Tapestry

/-- Operations that neither print nor read nor form loops. -/
def Opcode.isSilent : Opcode → Bool
  | .nop | .moveCell | .moveCursor | .undefined _ => true
  | .print | .read | .loopEnter | .loopExit => false

/-- What writes nothing and reads nothing is no bracket. -/
theorem Opcode.isLoop_of_isSilent {op : Opcode} (h : op.isSilent) : op.isLoop = false := by
  cases op with
  | print | read | loopEnter | loopExit => cases h
  | _ => rfl

/-- The argument matters only to operations that are counted. -/
theorem Instruction.effect_eq_of_op_eq {i j : Instruction} (op_eq : j.op = i.op)
    (kept : i.op.isCounted = false) (policy : EofPolicy) (s : Configuration) :
    i.effect policy s = j.effect policy s := by
  cases hop : i.op with
  | moveCell | moveCursor => simp [hop, Opcode.isCounted] at kept
  | _ => simp only [effect, op_eq, hop]

/-- A silent instruction always has an effect, and writes nothing. -/
theorem Instruction.exists_effect_of_isSilent (i : Instruction) (h : i.op.isSilent)
    (policy : EofPolicy) (s : Configuration) :
    ∃ next, i.effect policy s = some next ∧ next.output = s.output := by
  cases hop : i.op with
  | print | read | loopEnter | loopExit => simp [hop, Opcode.isSilent] at h
  | nop | moveCell | moveCursor | undefined rest => simp [effect, hop, Configuration.setCell]

/-- The effects of instructions one after the other. -/
def Instruction.effects (policy : EofPolicy) (instructions : List Instruction) (s : Configuration) :
    Option Configuration :=
  instructions.foldlM (fun s i => i.effect policy s) s

namespace Fragment

variable {exit : Exit} {t : Configuration} {i : PlainInstruction} {others rest : List Fragment}
  {policy : EofPolicy}

/-- What matching runs have in common: where they ended, or only what they have written if they
were cut short. -/
def Agree : Exit → Configuration → Configuration → Prop
  | .cut, t, t' => t.output = t'.output
  | .finished, t, t' | .starved, t, t' => t = t'

/-- A run agrees with itself. -/
theorem Agree.refl (exit : Exit) (t : Configuration) : Agree exit t t := by
  cases exit <;> rfl

/-- Runs that agree have written the same. -/
theorem Agree.output_eq {t' : Configuration} (h : Agree exit t t') : t.output = t'.output := by
  cases exit with
  | cut => exact h
  | finished | starved => exact congrArg Configuration.output h

/-- Every run of one tree is matched by a run of another. -/
def Simulates (tree other : List Fragment) : Prop :=
  ∀ policy s exit t, Runs policy tree s exit t → ∃ t', Runs policy other s exit t' ∧ Agree exit t t'

/-- A tree simulates itself. -/
theorem Simulates.refl (tree : List Fragment) : Simulates tree tree :=
  fun _ _ exit t h => ⟨t, h, Agree.refl exit t⟩

/-- One plain instruction may stand for another of the same effect. -/
theorem Simulates.plain {j : PlainInstruction}
    (heffect : ∀ policy s, i.val.effect policy s = j.val.effect policy s)
    (h : Simulates rest others) : Simulates (plain i :: rest) (plain j :: others) := by
  intro policy s exit t hruns
  cases hruns with
  | cut => exact ⟨s, .cut, rfl⟩
  | plain effect_eq behind =>
    obtain ⟨t', hbehind, hagree⟩ := h _ _ _ _ behind
    exact ⟨t', .plain (by rw [← heffect, effect_eq]) hbehind, hagree⟩
  | starve effect_eq => exact ⟨s, .starve (by rw [← heffect, effect_eq]), rfl⟩

/-- A loop may be replaced by one whose body runs alike. -/
theorem Simulates.loop {enter enter' : EnterInstruction} {exit exit' : ExitInstruction}
    {body body' rest' : List Fragment} (hbody : Simulates body body')
    (hrest : Simulates rest rest') :
    Simulates (loop enter exit body :: rest) (loop enter' exit' body' :: rest') := by
  intro policy s result t hruns
  generalize htree : Fragment.loop enter exit body :: rest = tree at hruns
  induction hruns with
  | finish | plain | starve => cases htree
  | cut => exact ⟨_, .cut, rfl⟩
  | skip cell_eq behind =>
    cases htree
    obtain ⟨t', hbehind, hagree⟩ := hrest _ _ _ _ behind
    exact ⟨t', .skip cell_eq hbehind, hagree⟩
  | again cell_ne inside _ _ ih =>
    cases htree
    obtain ⟨mid, hinside, rfl⟩ := hbody _ _ _ _ inside
    obtain ⟨t', honward, hagree⟩ := ih rfl
    exact ⟨t', .again cell_ne hinside honward, hagree⟩
  | inside cell_ne inside exit_ne =>
    cases htree
    obtain ⟨t', hinside, hagree⟩ := hbody _ _ _ _ inside
    exact ⟨t', .inside cell_ne hinside exit_ne, hagree⟩

/-- Plain instructions before a tree. -/
def after (moves : List PlainInstruction) (rest : List Fragment) : List Fragment :=
  moves.map .plain ++ rest

@[simp] theorem flatten_after (moves : List PlainInstruction) (rest : List Fragment) :
    flatten (after moves rest) = moves.map Subtype.val ++ flatten rest := by
  induction moves with
  | nil => rfl
  | cons move moves ih =>
    change flatten (.plain move :: after moves rest) = _
    rw [flatten_plain, ih, List.map_cons, List.cons_append]

/-- A tree runs behind instructions that have their effects. -/
theorem Runs.after {s mid : Configuration} (moves : List PlainInstruction)
    (heffects : Instruction.effects policy (moves.map Subtype.val) s = some mid)
    (h : Runs policy rest mid exit t) : Runs policy (after moves rest) s exit t := by
  induction moves generalizing s with
  | nil =>
    obtain rfl : s = mid := by simpa [Instruction.effects] using heffects
    exact h
  | cons move moves ih =>
    simp only [Instruction.effects, List.map_cons, List.foldlM_cons, Option.bind_eq_bind,
      Option.bind_eq_some_iff] at heffects
    obtain ⟨next, hnext, hmoves⟩ := heffects
    exact .plain hnext (ih hmoves)

/-- A run behind silent instructions gets through them, or is cut short having written nothing. -/
theorem Runs.of_after {s : Configuration} (moves : List PlainInstruction)
    (hsilent : ∀ move ∈ moves, move.val.op.isSilent)
    (h : Runs policy (Fragment.after moves rest) s exit t) :
    (∃ mid, Instruction.effects policy (moves.map Subtype.val) s = some mid ∧
      Runs policy rest mid exit t) ∨ exit = .cut ∧ t.output = s.output := by
  induction moves generalizing s with
  | nil => exact .inl ⟨s, rfl, h⟩
  | cons move moves ih =>
    obtain ⟨next, hnext, hwritten⟩ :=
      move.val.exists_effect_of_isSilent (hsilent move List.mem_cons_self) policy s
    have hrest (move' : PlainInstruction) (hmem : move' ∈ moves) : move'.val.op.isSilent :=
      hsilent move' (List.mem_cons_of_mem move hmem)
    cases h with
    | cut => exact .inr ⟨rfl, rfl⟩
    | starve effect_eq => simp [hnext] at effect_eq
    | plain effect_eq behind =>
      obtain rfl : next = _ := Option.some.inj (hnext.symm.trans effect_eq)
      rcases ih hrest behind with ⟨mid, hmid, hruns⟩ | ⟨hcut, houtput⟩
      · refine .inl ⟨mid, ?_, hruns⟩
        rw [Instruction.effects, List.map_cons, List.foldlM_cons, hnext]
        exact hmid
      · exact .inr ⟨hcut, houtput.trans hwritten⟩

/-- A silent instruction may be spread over several. -/
theorem Simulates.spread (moves : List PlainInstruction) (hsilent : i.val.op.isSilent)
    (hsame : ∀ policy s, Instruction.effects policy (moves.map Subtype.val) s = i.val.effect policy s)
    (h : Simulates rest others) : Simulates (.plain i :: rest) (after moves others) := by
  intro policy s exit t hruns
  obtain ⟨next, hnext, -⟩ := i.val.exists_effect_of_isSilent hsilent policy s
  cases hruns with
  | cut => exact ⟨s, .cut, rfl⟩
  | starve effect_eq => simp [hnext] at effect_eq
  | plain effect_eq behind =>
    obtain ⟨t', hbehind, hagree⟩ := h _ _ _ _ behind
    exact ⟨t', .after moves ((hsame policy s).trans effect_eq) hbehind, hagree⟩

/-- Silent instructions may be gathered into one. -/
theorem Simulates.gather (moves : List PlainInstruction)
    (hsilent : ∀ move ∈ moves, move.val.op.isSilent)
    (hsame : ∀ policy s, Instruction.effects policy (moves.map Subtype.val) s = i.val.effect policy s)
    (h : Simulates others rest) : Simulates (after moves others) (.plain i :: rest) := by
  intro policy s exit t hruns
  rcases hruns.of_after moves hsilent with ⟨mid, hmid, hbehind⟩ | ⟨rfl, houtput⟩
  · obtain ⟨t', hruns', hagree⟩ := h _ _ _ _ hbehind
    exact ⟨t', .plain ((hsame policy s).symm.trans hmid) hruns', hagree⟩
  · exact ⟨s, .cut, houtput⟩

end Fragment

/-! ## Unfolding flat programs -/

namespace Brackets

/-- Whether instructions close `depth` loops that are open before them, and all of their own. -/
def closes : (depth : Nat) → List Instruction → Bool
  | depth, [] => depth == 0
  | depth, i :: rest =>
    match i.op, depth with
    | .loopEnter, depth => closes (depth + 1) rest
    | .loopExit, 0 => false
    | .loopExit, depth + 1 => closes depth rest
    | _, depth => closes depth rest

/-- An instruction that is no bracket closes nothing. -/
theorem closes_plain {i : Instruction} (rest : List Instruction) (h : i.op.isLoop = false)
    (depth : Nat) : closes depth (i :: rest) = closes depth rest := by
  cases hop : i.op with
  | loopEnter | loopExit => simp [hop, Opcode.isLoop] at h
  | _ => simp [closes, hop]

/-- Instructions that are no brackets close nothing. -/
theorem closes_plains (moves : List PlainInstruction) (rest : List Instruction) (depth : Nat) :
    closes depth (moves.map Subtype.val ++ rest) = closes depth rest := by
  induction moves with
  | nil => rfl
  | cons move moves ih => rw [List.map_cons, List.cons_append, closes_plain _ move.property, ih]

/-- Linking accepts what closes every loop that is open. -/
theorem isOk_linkFrom (program : List Instruction) (index : Nat) (opened : List Nat)
    (code : Array LinkedInstruction) :
    (linkFrom index opened code program).isOk = closes opened.length program := by
  induction program generalizing index opened code with
  | nil =>
    cases opened with
    | nil => rfl
    | cons start outer => rfl
  | cons i rest ih =>
    cases hop : i.op with
    | loopEnter => simp [linkFrom, closes, hop, ih]
    | loopExit =>
      cases opened with
      | nil => simp [linkFrom, closes, hop, Except.isOk, Except.toBool]
      | cons start outer => simp [linkFrom, closes, hop, ih]
    | _ => simp [linkFrom, closes, hop, ih]

end Brackets

/-- A program with silent instructions spread over others. What is not counted keeps its place. -/
inductive Unfolds : List Instruction → List Instruction → Prop
  | nil : Unfolds [] []
  | keep {i j p q} (op_eq : j.op = i.op) (kept : i.op.isCounted = false) (behind : Unfolds p q) :
      Unfolds (i :: p) (j :: q)
  | spread {i p q} (moves : List PlainInstruction) (silent : i.op.isSilent)
      (moves_silent : ∀ move ∈ moves, move.val.op.isSilent)
      (same : ∀ policy s, Instruction.effects policy (moves.map Subtype.val) s = i.effect policy s)
      (behind : Unfolds p q) : Unfolds (i :: p) (moves.map Subtype.val ++ q)

namespace Unfolds

variable {p q : List Instruction}

/-- Programs unfold part by part. -/
theorem append {p' q' : List Instruction} (h : Unfolds p q) (h' : Unfolds p' q') :
    Unfolds (p ++ p') (q ++ q') := by
  induction h with
  | nil => exact h'
  | keep op_eq kept _ ih => exact .keep op_eq kept ih
  | spread moves silent moves_silent same _ ih =>
    rw [List.cons_append, List.append_assoc]
    exact .spread moves silent moves_silent same ih

/-- What two parts unfold to falls into two parts. -/
theorem of_append {p' : List Instruction} (h : Unfolds (p ++ p') q) :
    ∃ front back, q = front ++ back ∧ Unfolds p front ∧ Unfolds p' back := by
  induction p generalizing q with
  | nil => exact ⟨[], q, rfl, .nil, h⟩
  | cons i p ih =>
    cases h with
    | keep op_eq kept behind =>
      obtain ⟨front, back, rfl, hfront, hback⟩ := ih behind
      exact ⟨_ :: front, back, rfl, .keep op_eq kept hfront, hback⟩
    | spread moves silent moves_silent same behind =>
      obtain ⟨front, back, rfl, hfront, hback⟩ := ih behind
      exact ⟨_, back, (List.append_assoc _ _ _).symm, .spread moves silent moves_silent same hfront, hback⟩

/-- A bracket unfolds to a bracket. -/
theorem of_bracket {i : Instruction} (hloop : i.op.isLoop) (h : Unfolds (i :: p) q) :
    ∃ j q', q = j :: q' ∧ j.op = i.op ∧ Unfolds p q' := by
  cases h with
  | keep op_eq kept behind => exact ⟨_, _, rfl, op_eq, behind⟩
  | spread moves silent moves_silent same behind =>
    cases hop : i.op <;> simp [hop, Opcode.isLoop, Opcode.isSilent] at hloop silent

/-- Unfolding changes nothing about which brackets are paired. -/
theorem closes_eq (h : Unfolds p q) (depth : Nat) :
    Brackets.closes depth p = Brackets.closes depth q := by
  induction h generalizing depth with
  | nil => rfl
  | keep op_eq kept _ ih =>
    simp only [Brackets.closes, op_eq, ih]
  | spread moves silent moves_silent same _ ih =>
    rw [Brackets.closes_plains, Brackets.closes_plain _ (Opcode.isLoop_of_isSilent silent), ih]

/-- A tree unfolds to a tree that runs alike. -/
theorem exists_tree {tree : List Fragment} (h : Unfolds (Fragment.flatten tree) q) :
    ∃ other, Fragment.flatten other = q ∧ Fragment.Simulates tree other ∧
      Fragment.Simulates other tree := by
  induction tree using Fragment.forestInduction generalizing q with
  | nil =>
    rw [Fragment.flatten_nil] at h
    cases h
    exact ⟨[], by simp, .refl [], .refl []⟩
  | plain i rest ih =>
    rw [Fragment.flatten_plain] at h
    cases h with
    | @keep _ j _ _ op_eq kept behind =>
      obtain ⟨others, rfl, hsim, hback⟩ := ih behind
      have heffect (policy : EofPolicy) (s : Configuration) :
          i.val.effect policy s = j.effect policy s :=
        Instruction.effect_eq_of_op_eq op_eq kept policy s
      have hplain : j.op.isLoop = false := by rw [op_eq]; exact i.property
      exact ⟨.plain ⟨j, hplain⟩ :: others, by simp, hsim.plain heffect,
        hback.plain fun policy s => (heffect policy s).symm⟩
    | spread moves silent moves_silent same behind =>
      obtain ⟨others, rfl, hsim, hback⟩ := ih behind
      exact ⟨Fragment.after moves others, by simp, hsim.spread moves silent same,
        hback.gather moves moves_silent same⟩
  | loop enter exit body rest ihBody ihRest =>
    rw [Fragment.flatten_loop] at h
    obtain ⟨first, _, rfl, hfirst, hparts⟩ := h.of_bracket (by rw [enter.property]; rfl)
    obtain ⟨_, _, rfl, hinner, htail⟩ := hparts.of_append
    obtain ⟨last, _, rfl, hlast, houter⟩ := htail.of_bracket (by rw [exit.property]; rfl)
    obtain ⟨body', rfl, hsim, hback⟩ := ihBody hinner
    obtain ⟨rest', rfl, hsim', hback'⟩ := ihRest houter
    exact ⟨.loop ⟨first, hfirst.trans enter.property⟩ ⟨last, hlast.trans exit.property⟩ body' :: rest',
      by simp, hsim.loop hsim', hback.loop hback'⟩

end Unfolds

end Tapestry

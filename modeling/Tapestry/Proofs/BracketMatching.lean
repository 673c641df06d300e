import Tapestry.Proofs.LoopRefinement
import Tapestry.Proofs.LoopSimulation
import Tapestry.Proofs.ScopeContents

/-!
# Which brackets are partners

Linking accepts a program exactly if no part in front closes more loops than it opens and the
whole closes all it opens. It then overwrites the arguments of the brackets, whatever they were, and
nothing else: the argument of a bracket becomes the index of the one that whole loops stand between. A
program that is refused is refused for the first bracket that closes nothing, or else for the last one
that is never closed.

So a jump leads to behind a bracket of the program, and a machine never leaves its program but by
its end.
-/

namespace Tapestry

namespace Brackets

variable {code : Array LinkedInstruction} {i : Instruction} {index first last : Nat}
  {tree : List Fragment} {program other : List Instruction} {enter : EnterInstruction}

/-! ## Balance -/

/-- The number of loops that instructions open. -/
def enters (program : List Instruction) : Nat := program.countP fun i => decide (i.op = .loopEnter)

/-- The number of loops that instructions close. -/
def exits (program : List Instruction) : Nat := program.countP fun i => decide (i.op = .loopExit)

/-- No part in front closes more loops than it opens, and the whole closes all it opens. -/
structure Balanced (program : List Instruction) : Prop where
  exits_le : ∀ n, exits (program.take n) ≤ enters (program.take n)
  exits_eq : exits program = enters program

/-- Opening brackets are counted piece by piece. -/
theorem enters_append (front back : List Instruction) :
    enters (front ++ back) = enters front + enters back := List.countP_append

/-- Closing brackets are counted piece by piece. -/
theorem exits_append (front back : List Instruction) :
    exits (front ++ back) = exits front + exits back := List.countP_append

section Counts

variable {i : Instruction} (rest : List Instruction)

/-- An opening bracket in front is one more that opens. -/
theorem enters_of_enter (h : i.op = .loopEnter) : enters (i :: rest) = enters rest + 1 := by
  simp [enters, h]

/-- An opening bracket in front does not close. -/
theorem exits_of_enter (h : i.op = .loopEnter) : exits (i :: rest) = exits rest := by
  simp [exits, h]

/-- A closing bracket in front does not open. -/
theorem enters_of_exit (h : i.op = .loopExit) : enters (i :: rest) = enters rest := by
  simp [enters, h]

/-- A closing bracket in front is one more that closes. -/
theorem exits_of_exit (h : i.op = .loopExit) : exits (i :: rest) = exits rest + 1 := by
  simp [exits, h]

/-- No bracket in front opens nothing. -/
theorem enters_of_plain (h : i.op.isLoop = false) : enters (i :: rest) = enters rest := by
  cases hop : i.op <;> simp_all [enters, Opcode.isLoop]

/-- No bracket in front closes nothing. -/
theorem exits_of_plain (h : i.op.isLoop = false) : exits (i :: rest) = exits rest := by
  cases hop : i.op <;> simp_all [exits, Opcode.isLoop]

end Counts

/-- An instruction opens a loop, closes one, or is no bracket. -/
theorem bracket_cases (i : Instruction) :
    i.op = .loopEnter ∨ i.op = .loopExit ∨ i.op.isLoop = false := by
  cases i.op <;> simp [Opcode.isLoop]

/-- Instructions close the loops that are open before them and all of their own, just if their
numbers say so. -/
theorem closes_iff (depth : Nat) (program : List Instruction) :
    closes depth program = true ↔
      (∀ n, exits (program.take n) ≤ depth + enters (program.take n)) ∧
        exits program = depth + enters program := by
  induction program generalizing depth with
  | nil =>
    have hclosed : closes depth [] = true ↔ 0 = depth := by rw [closes, beq_iff_eq, eq_comm]
    simpa [exits, enters] using hclosed
  | cons i rest ih =>
    rw [← Nat.and_forall_add_one]
    simp only [List.take_zero, List.take_succ_cons]
    have hnone : exits [] ≤ depth + enters [] := Nat.zero_le _
    rcases bracket_cases i with hop | hop | hop
    · simp only [closes, hop, ih, enters_of_enter _ hop, exits_of_enter _ hop, hnone, true_and,
        Nat.add_right_comm depth 1, Nat.add_assoc]
    · simp only [closes, hop, enters_of_exit _ hop, exits_of_exit _ hop, hnone, true_and]
      cases depth with
      | zero =>
        simp only [Bool.false_eq_true, false_iff, not_and]
        intro hle
        exact absurd (hle 0) (by simp [exits, enters])
      | succ depth =>
        simp only [ih, Nat.add_right_comm depth 1, Nat.add_le_add_iff_right, Nat.add_right_cancel_iff]
    · simp only [closes_plain _ hop, ih, enters_of_plain _ hop, exits_of_plain _ hop, hnone, true_and]

/-- Linking accepts the balanced programs. -/
theorem isOk_link_iff (program : List Instruction) :
    (link program).isOk = true ↔ Balanced program := by
  have hcloses : (link program).isOk = closes 0 program := isOk_linkFrom program 0 [] _
  rw [hcloses, closes_iff]
  simp only [Nat.zero_add]
  exact ⟨fun h => ⟨h.1, h.2⟩, fun h => ⟨h.1, h.2⟩⟩

/-- The balanced programs are the writings of trees. -/
theorem balanced_iff (program : List Instruction) :
    Balanced program ↔ ∃ tree, Fragment.flatten tree = program :=
  (isOk_link_iff program).symm.trans (Fragment.link_isOk_iff program)

/-! ## Partners -/

/-- The operation at an index of a program. -/
def opAt (program : List Instruction) (index : Nat) : Option Opcode :=
  program[index]?.map Instruction.op

/-- A loop opens at one index and closes at another, with whole loops between. -/
structure Pairs (program : List Instruction) (first last : Nat) : Prop where
  lt : first < last
  enter_eq : opAt program first = some .loopEnter
  exit_eq : opAt program last = some .loopExit
  between : Balanced ((program.take last).drop (first + 1))

/-- The argument of the instruction at an index of a linked program. -/
def argAt (code : Array LinkedInstruction) (index : Nat) : Option Int :=
  code[index]?.map LinkedInstruction.arg

/-- The two ends of a loop have the indexes of each other for their arguments. -/
structure Joins (code : Array LinkedInstruction) (first last : Nat) : Prop where
  first_eq : argAt code first = some (last : Int)
  last_eq : argAt code last = some (first : Int)

/-- What a linked program has in place of an instruction: the same, but for the argument of a bracket. -/
structure Keeps (i : Instruction) (linked : LinkedInstruction) : Prop where
  op_eq : linked.op = i.op
  comment_eq : linked.comment = i.comment
  arg_eq : i.op.isLoop = false → linked.arg = i.arg.toInt

/-- A linked program keeps the instructions of a tree that stands in it. -/
theorem keeps_of_placed (h : Fragment.Placed code index tree) {offset : Nat}
    (hat : (Fragment.flatten tree)[offset]? = some i) :
    ∃ linked, code[index + offset]? = some linked ∧ Keeps i linked := by
  have hbracket {i : Instruction} (place : Nat) (hop : i.op.isLoop = true) : Keeps i (i.linkedTo place) :=
    ⟨rfl, rfl, fun hplain => by rw [hop] at hplain; cases hplain⟩
  induction h generalizing offset with
  | nil => simp at hat
  | plain at_eq _ ih =>
    rw [Fragment.flatten_plain] at hat
    cases offset with
    | zero =>
      cases hat
      exact ⟨_, at_eq, rfl, rfl, fun _ => rfl⟩
    | succ offset =>
      obtain ⟨linked, hlinked, hkeeps⟩ := ih hat
      exact ⟨linked, by rw [← hlinked]; congr 1; omega, hkeeps⟩
  | @loop index last enter exit body rest last_eq enter_eq exit_eq _ _ ihBody ihTail =>
    rw [Fragment.flatten_loop] at hat
    -- The instruction is an end of the loop, or it stands in the body or behind the loop.
    cases offset with
    | zero =>
      cases hat
      exact ⟨_, enter_eq, hbracket last (by rw [enter.property]; rfl)⟩
    | succ offset =>
      rw [List.getElem?_cons_succ] at hat
      rcases Nat.lt_trichotomy offset (Fragment.flatten body).length with hlt | heq | hgt
      · rw [List.getElem?_append_left hlt] at hat
        obtain ⟨linked, hlinked, hkeeps⟩ := ihBody hat
        exact ⟨linked, by rw [← hlinked]; congr 1; omega, hkeeps⟩
      · rw [heq, List.getElem?_append_right (Nat.le_refl _), Nat.sub_self] at hat
        cases hat
        refine ⟨_, ?_, hbracket index (by rw [exit.property]; rfl)⟩
        rw [← exit_eq, last_eq, heq]
        congr 1
        omega
      · obtain ⟨behind, rfl⟩ : ∃ n, offset = (Fragment.flatten body).length + (n + 1) :=
          ⟨offset - (Fragment.flatten body).length - 1, by omega⟩
        rw [List.getElem?_append_right (Nat.le_add_right _ _), Nat.add_sub_cancel_left,
          List.getElem?_cons_succ] at hat
        obtain ⟨linked, hlinked, hkeeps⟩ := ihTail hat
        exact ⟨linked, by rw [← hlinked, last_eq]; congr 1; omega, hkeeps⟩

/-- The part of a program between the ends of a loop is the body of the loop. -/
theorem pairs_of_drop {back : List Instruction} {exit : ExitInstruction} {body : List Fragment}
    (h : program.drop index = enter.val :: (Fragment.flatten body ++ exit.val :: back)) :
    Pairs program index (index + 1 + (Fragment.flatten body).length) := by
  have hbody : program.drop (index + 1) = Fragment.flatten body ++ exit.val :: back :=
    Fragment.drop_add_of_drop_eq [enter.val] h
  have hexit := Fragment.drop_add_of_drop_eq (Fragment.flatten body) hbody
  refine ⟨by omega, ?_, ?_, ?_⟩
  · rw [opAt, Fragment.getElem?_of_drop_eq h, Option.map_some, enter.property]
  · rw [opAt, Fragment.getElem?_of_drop_eq hexit, Option.map_some, exit.property]
  · rw [List.drop_take, Nat.add_sub_cancel_left, hbody, List.take_left, balanced_iff]
    exact ⟨body, rfl⟩

/-- Every bracket of a tree that stands in a linked program is one end of a loop. -/
theorem exists_pairs_of_placed (hplaced : Fragment.Placed code index tree)
    (behind : List Instruction) (hwritten : program.drop index = Fragment.flatten tree ++ behind)
    {place : Nat} {bracket : Instruction} (hlow : index ≤ place)
    (hhigh : place < index + (Fragment.flatten tree).length) (hat : program[place]? = some bracket)
    (hbracket : bracket.op.isLoop = true) :
    ∃ first last, (place = first ∨ place = last) ∧ Pairs program first last ∧
      Joins code first last := by
  induction hplaced generalizing behind with
  | nil =>
    rw [Fragment.flatten_nil, List.length_nil] at hhigh
    omega
  | @plain index i rest _ _ ih =>
    rw [Fragment.flatten_plain] at hwritten
    rw [Fragment.flatten_plain, List.length_cons] at hhigh
    by_cases hplace : place = index
    · have hplain := i.property
      rw [hplace, Fragment.getElem?_of_drop_eq hwritten] at hat
      rw [Option.some.inj hat, hbracket] at hplain
      cases hplain
    · exact ih behind (Fragment.drop_add_of_drop_eq [i.val] hwritten) (by omega) (by omega)
  | @loop index last enter exit body rest last_eq enter_eq exit_eq _ _ ihBody ihTail =>
    rw [Fragment.add_length_flatten_loop] at hhigh
    rw [Fragment.flatten_loop, List.cons_append, List.append_assoc, List.cons_append] at hwritten
    have hpairs := pairs_of_drop hwritten
    rw [← last_eq] at hpairs
    -- The bracket is an end of the loop, or it stands in the body or behind the loop.
    by_cases hends : place = index ∨ place = last
    · refine ⟨index, last, hends, hpairs, ?_, ?_⟩
      · rw [argAt, enter_eq, Option.map_some, Instruction.linkedTo]
      · rw [argAt, exit_eq, Option.map_some, Instruction.linkedTo]
    have hbody : program.drop (index + 1) =
        Fragment.flatten body ++ exit.val :: (Fragment.flatten rest ++ behind) :=
      Fragment.drop_add_of_drop_eq [enter.val] hwritten
    by_cases hbefore : place < last
    · exact ihBody _ hbody (by omega) (by omega)
    · have hexit := Fragment.drop_add_of_drop_eq (Fragment.flatten body) hbody
      rw [← last_eq] at hexit
      exact ihTail behind (Fragment.drop_add_of_drop_eq [exit.val] hexit) (by omega) (by omega)

/-- What linking makes of a program it accepts: a copy that keeps everything but the arguments of the
brackets, which join every bracket and its partner. -/
structure Links (program : List Instruction) (code : Array LinkedInstruction) : Prop where
  size_eq : code.size = program.length
  kept : ∀ (index : Nat) (i : Instruction), program[index]? = some i →
    ∃ linked, code[index]? = some linked ∧ Keeps i linked
  joined : ∀ (index : Nat) (i : Instruction), program[index]? = some i → i.op.isLoop = true →
    ∃ first last, (index = first ∨ index = last) ∧ Pairs program first last ∧ Joins code first last

/-- Linking makes a linked copy of a program. -/
theorem links_of_link (h : link program = .ok code) : Links program code := by
  obtain ⟨tree, rfl, hcode⟩ := Fragment.exists_isCode_of_link h
  refine ⟨hcode.size_eq, fun index i hat => ?_, fun index i hat hbracket => ?_⟩
  · have hkeeps := keeps_of_placed hcode.placed hat
    rwa [Nat.zero_add] at hkeeps
  · have hlt := (List.getElem?_eq_some_iff.mp hat).1
    exact exists_pairs_of_placed hcode.placed [] (by simp) (Nat.zero_le index) (by simpa using hlt) hat
      hbracket

namespace Links

variable {program : List Instruction} {code : Array LinkedInstruction} {first last : Nat}

/-- The bracket that opens a loop is joined to its partner. -/
theorem of_enter (h : Links program code) (henter : opAt program first = some .loopEnter) :
    ∃ last, Pairs program first last ∧ Joins code first last := by
  obtain ⟨i, hat, hop⟩ := Option.map_eq_some_iff.mp henter
  obtain ⟨start, last, rfl | rfl, hpairs, hjoins⟩ := h.joined first i hat (by rw [hop]; rfl)
  · exact ⟨last, hpairs, hjoins⟩
  · cases henter.symm.trans hpairs.exit_eq

/-- The bracket that closes a loop is joined to its partner. -/
theorem of_exit (h : Links program code) (hexit : opAt program last = some .loopExit) :
    ∃ first, Pairs program first last ∧ Joins code first last := by
  obtain ⟨i, hat, hop⟩ := Option.map_eq_some_iff.mp hexit
  obtain ⟨first, stop, rfl | rfl, hpairs, hjoins⟩ := h.joined last i hat (by rw [hop]; rfl)
  · cases hexit.symm.trans hpairs.enter_eq
  · exact ⟨first, hpairs, hjoins⟩

end Links

/-- Only one bracket closes a loop. -/
theorem Pairs.last_unique {other : Nat} (h : Pairs program first last)
    (hother : Pairs program first other) : last = other := by
  -- Up to the bracket that comes first whole loops stand; it would close one too many before the other.
  have hle {last other : Nat} (h : Pairs program first last) (hother : Pairs program first other) :
      other ≤ last := by
    by_contra hlt
    obtain ⟨i, hat, hop⟩ := Option.map_eq_some_iff.mp h.exit_eq
    have hfirst := h.lt
    have hbetween : ((program.take other).drop (first + 1)).take (last - first) =
        (program.take last).drop (first + 1) ++ [i] := by
      have hlength : first + 1 + (last - first) = last + 1 := by omega
      rw [List.take_drop, List.take_take, hlength, Nat.min_eq_left (by omega), List.take_add_one, hat,
        Option.toList_some, List.drop_append_of_le_length]
      rw [List.length_take, Nat.min_eq_left]
      · omega
      · exact Nat.le_of_lt (List.getElem?_eq_some_iff.mp hat).1
    have hexcess := hother.between.exits_le (last - first)
    rw [hbetween, exits_append, enters_append, h.between.exits_eq, exits_of_exit [] hop,
      enters_of_exit [] hop] at hexcess
    have hexits : exits [] = 0 := rfl
    have henters : enters [] = 0 := rfl
    omega
  exact Nat.le_antisymm (hle hother h) (hle h hother)

/-- Which brackets are partners can be told from the operations. -/
theorem Pairs.congr (hops : other.map Instruction.op = program.map Instruction.op)
    (h : Pairs program first last) :
    Pairs other first last := by
  have hat (index : Nat) : opAt other index = opAt program index := by
    rw [opAt, opAt, ← List.getElem?_map, ← List.getElem?_map, hops]
  have hcount (p : Opcode → Bool) {l l' : List Instruction}
      (hsame : l'.map Instruction.op = l.map Instruction.op) :
      l'.countP (fun i => p i.op) = l.countP fun i => p i.op := by
    have hboth := congrArg (List.countP p) hsame
    rwa [List.countP_map, List.countP_map] at hboth
  have hpart (n : Nat) : (((other.take last).drop (first + 1)).take n).map Instruction.op =
      (((program.take last).drop (first + 1)).take n).map Instruction.op := by
    simp only [List.map_take, List.map_drop, hops]
  have hwhole : ((other.take last).drop (first + 1)).map Instruction.op =
      ((program.take last).drop (first + 1)).map Instruction.op := by
    simp only [List.map_take, List.map_drop, hops]
  refine ⟨h.lt, (hat first).trans h.enter_eq, (hat last).trans h.exit_eq, fun n => ?_, ?_⟩
  · have hle := h.between.exits_le n
    rwa [exits, enters, ← hcount (decide <| · = .loopExit) (hpart n),
      ← hcount (decide <| · = .loopEnter) (hpart n)] at hle
  · have heq := h.between.exits_eq
    rwa [exits, enters, ← hcount (decide <| · = .loopExit) hwhole,
      ← hcount (decide <| · = .loopEnter) hwhole] at heq

/-- Brackets get the same arguments whatever arguments they had. -/
theorem Links.argAt_congr {code' : Array LinkedInstruction}
    (hops : other.map Instruction.op = program.map Instruction.op) (h : Links program code)
    (h' : Links other code') (hat : program[index]? = some i) (hbracket : i.op.isLoop = true) :
    argAt code' index = argAt code index := by
  obtain ⟨first, last, hends, hpairs, hjoins⟩ := h.joined index i hat hbracket
  have hpairs' := hpairs.congr hops
  obtain ⟨last', hagain, hjoins'⟩ := h'.of_enter hpairs'.enter_eq
  obtain rfl := hagain.last_unique hpairs'
  rcases hends with rfl | rfl
  · exact hjoins'.first_eq.trans hjoins.first_eq.symm
  · exact hjoins'.last_eq.trans hjoins.last_eq.symm

/-! ## Refused programs -/

/-- More loops are closed than opened up to and with an index, and not before. -/
structure FirstExcess (program : List Instruction) (index : Nat) : Prop where
  lt : enters (program.take (index + 1)) < exits (program.take (index + 1))
  le_before : ∀ n ≤ index, exits (program.take n) ≤ enters (program.take n)

/-- A loop opens at an index and is never closed. -/
structure Unclosed (program : List Instruction) (index : Nat) : Prop where
  enter_eq : opAt program index = some .loopEnter
  unpaired : ∀ last, ¬ Pairs program index last

/-- How linking fares with the closing brackets of instructions that stand from `index` on, behind
`depth` open loops: it comes through, or stops at the first one that is too many. -/
inductive Fares (depth index : Nat) (program : List Instruction) :
    Except Unbalanced (Array LinkedInstruction) → Prop where
  | through {result : Except Unbalanced (Array LinkedInstruction)}
      (le : ∀ n, exits (program.take n) ≤ depth + enters (program.take n))
      (ne : ∀ stop, result ≠ .error (.exit stop)) : Fares depth index program result
  | stopped {offset : Nat}
      (lt : depth + enters (program.take (offset + 1)) < exits (program.take (offset + 1)))
      (le_before : ∀ n ≤ offset, exits (program.take n) ≤ depth + enters (program.take n)) :
      Fares depth index program (.error (.exit (index + offset)))

/-- An instruction that linking passes moves all counts behind it alike. -/
theorem Fares.cons {depth more : Nat} {rest : List Instruction}
    {result : Except Unbalanced (Array LinkedInstruction)} (opening closing : Nat)
    (h : Fares more (index + 1) rest result) (henters : ∀ l, enters (i :: l) = enters l + opening)
    (hexits : ∀ l, exits (i :: l) = exits l + closing) (hdepth : depth + opening = more + closing) :
    Fares depth index (i :: rest) result := by
  have hnone : exits [] ≤ depth + enters [] := Nat.zero_le _
  cases h with
  | through le ne =>
    refine .through (fun n => ?_) ne
    cases n with
    | zero => exact hnone
    | succ n =>
      have := le n
      rw [List.take_succ_cons, henters, hexits]
      omega
  | @stopped offset lt le_before =>
    rw [Nat.add_assoc, Nat.add_comm 1]
    refine .stopped ?_ fun n hn => ?_
    · rw [List.take_succ_cons, henters, hexits]
      omega
    · cases n with
      | zero => exact hnone
      | succ n =>
        have := le_before n (by omega)
        rw [List.take_succ_cons, henters, hexits]
        omega

/-- Linking is stopped by the first bracket that closes no loop, and by no other that closes. -/
theorem linkFrom_fares (program : List Instruction) (index : Nat) (opened : List Nat)
    (code : Array LinkedInstruction) :
    Fares opened.length index program (linkFrom index opened code program) := by
  induction program generalizing index opened code with
  | nil =>
    refine .through (by simp [exits]) fun stop => ?_
    cases opened <;> simp [linkFrom]
  | cons i rest ih =>
    rcases bracket_cases i with hop | hop | hop
    · rw [Fragment.linkFrom_enter ⟨i, hop⟩]
      exact (ih (index + 1) (index :: opened) code).cons 1 0 (fun l => enters_of_enter l hop)
        (fun l => exits_of_enter l hop) rfl
    · cases opened with
      | nil =>
        rw [Fragment.linkFrom_exit_nil ⟨i, hop⟩]
        have hlt : 0 + enters ((i :: rest).take (0 + 1)) < exits ((i :: rest).take (0 + 1)) := by
          simp [enters, exits, hop]
        exact .stopped hlt fun n hn => by simp [Nat.le_zero.mp hn, exits]
      | cons start outer =>
        rw [Fragment.linkFrom_exit ⟨i, hop⟩]
        exact (ih (index + 1) outer _).cons 0 1 (fun l => enters_of_exit l hop)
          (fun l => exits_of_exit l hop) rfl
    · rw [Fragment.linkFrom_plain ⟨i, hop⟩]
      exact (ih (index + 1) opened code).cons 0 0 (fun l => enters_of_plain l hop)
        (fun l => exits_of_plain l hop) rfl

/-- A loop that linking finds open at the end is followed by whole loops only, or it was open
before and all that were opened since are closed. -/
theorem linkFrom_enter_cases {stop : Nat} {opened : List Nat}
    (h : linkFrom index opened code program = .error (.enter stop)) :
    (∃ front tree, ∃ enter : EnterInstruction,
        program = front ++ enter.val :: Fragment.flatten tree ∧ stop = index + front.length) ∨
      ∃ depth, Fragment.Closes depth program ∧ opened[depth]? = some stop := by
  -- The loop to blame may have been opened before; then the program closes those inside it.
  induction program generalizing index opened code with
  | nil =>
    cases opened with
    | nil => simp [linkFrom] at h
    | cons start outer =>
      obtain rfl : start = stop := by simpa [linkFrom] using h
      exact .inr ⟨0, ⟨[], by simp⟩, rfl⟩
  | cons i rest ih =>
    have hfront {front : List Instruction} {tree : List Fragment} {enter : EnterInstruction}
        (hrest : rest = front ++ enter.val :: Fragment.flatten tree)
        (hstop : stop = index + 1 + front.length) :
        ∃ front tree, ∃ enter : EnterInstruction,
          i :: rest = front ++ enter.val :: Fragment.flatten tree ∧ stop = index + front.length :=
      ⟨i :: front, tree, enter, by rw [hrest, List.cons_append], by rw [hstop, List.length_cons]; omega⟩
    rcases bracket_cases i with hop | hop | hop
    · rw [Fragment.linkFrom_enter ⟨i, hop⟩] at h
      rcases ih h with ⟨front, tree, enter, hrest, hstop⟩ | ⟨depth, hcloses, hopen⟩
      · exact .inl (hfront hrest hstop)
      · cases depth with
        | zero =>
          obtain ⟨tree, rfl⟩ := hcloses
          obtain rfl : index = stop := by simpa using hopen
          exact .inl ⟨[], tree, ⟨i, hop⟩, rfl, rfl⟩
        | succ depth =>
          exact .inr ⟨depth, Fragment.closes_enter ⟨i, hop⟩ depth rest hcloses, by simpa using hopen⟩
    · cases opened with
      | nil =>
        rw [Fragment.linkFrom_exit_nil ⟨i, hop⟩] at h
        cases h
      | cons start outer =>
        rw [Fragment.linkFrom_exit ⟨i, hop⟩] at h
        rcases ih h with ⟨front, tree, enter, hrest, hstop⟩ | ⟨depth, hcloses, hopen⟩
        · exact .inl (hfront hrest hstop)
        · exact .inr ⟨depth + 1, ⟨[], ⟨i, hop⟩, rest, by simp, hcloses⟩, by simpa using hopen⟩
    · rw [Fragment.linkFrom_plain ⟨i, hop⟩] at h
      rcases ih h with ⟨front, tree, enter, hrest, hstop⟩ | ⟨depth, hcloses, hopen⟩
      · exact .inl (hfront hrest hstop)
      · exact .inr ⟨depth, Fragment.closes_plain ⟨i, hop⟩ depth rest hcloses, hopen⟩

/-- Behind other instructions a loop has its ends further on. -/
theorem Pairs.behind (front : List Instruction) (h : Pairs program first last) :
    Pairs (front ++ program) (front.length + first) (front.length + last) := by
  have hop (index : Nat) : opAt (front ++ program) (front.length + index) = opAt program index := by
    rw [opAt, opAt, List.getElem?_append_right (Nat.le_add_right _ _), Nat.add_sub_cancel_left]
  refine ⟨Nat.add_lt_add_left h.lt _, (hop first).trans h.enter_eq, (hop last).trans h.exit_eq, ?_⟩
  rw [List.take_length_add_append, Nat.add_assoc, List.drop_length_add_append]
  exact h.between

/-- In a balanced program every bracket that opens a loop has its partner. -/
theorem Balanced.exists_pairs (h : Balanced program)
    (henter : opAt program first = some .loopEnter) :
    ∃ last, Pairs program first last := by
  obtain ⟨tree, rfl⟩ := (balanced_iff program).mp h
  obtain ⟨last, hpairs, -⟩ := (links_of_link (Fragment.link_flatten tree)).of_enter henter
  exact ⟨last, hpairs⟩

/-- A loop that only whole loops follow is the last one that is never closed. -/
theorem unclosed_of_append {front : List Instruction}
    (h : program = front ++ enter.val :: Fragment.flatten tree) :
    Unclosed program front.length ∧ ∀ index, front.length < index → ¬ Unclosed program index := by
  have hwhole : Balanced (Fragment.flatten tree) := (balanced_iff _).mpr ⟨tree, rfl⟩
  have hsplit : program = (front ++ [enter.val]) ++ Fragment.flatten tree := by simp [h]
  have hop (index : Nat) :
      opAt program (front.length + 1 + index) = opAt (Fragment.flatten tree) index := by
    rw [opAt, opAt, hsplit, List.getElem?_append_right (by simp)]
    simp
  constructor
  · refine ⟨by simp [opAt, h, enter.property], fun last hpairs => ?_⟩
    -- The whole loops would close one loop too many where the partner stands.
    obtain ⟨offset, rfl⟩ : ∃ offset, last = front.length + 1 + offset :=
      ⟨last - (front.length + 1), by have := hpairs.lt; omega⟩
    obtain ⟨i, hat, hexit⟩ := Option.map_eq_some_iff.mp ((hop offset).symm.trans hpairs.exit_eq)
    have hbetween : (program.take (front.length + 1 + offset)).drop (front.length + 1) =
        (Fragment.flatten tree).take offset := by
      have hlength : front.length + 1 = (front ++ [enter.val]).length := by simp
      rw [hsplit, hlength, List.take_length_add_append, List.drop_left]
    have hbalanced := hpairs.between.exits_eq
    have hle := hwhole.exits_le (offset + 1)
    rw [hbetween] at hbalanced
    rw [List.take_add_one, hat, Option.toList_some, exits_append, enters_append, exits_of_exit [] hexit,
      enters_of_exit [] hexit, hbalanced] at hle
    have hexits : exits [] = 0 := rfl
    have henters : enters [] = 0 := rfl
    omega
  · intro index hlt hunclosed
    obtain ⟨offset, rfl⟩ : ∃ offset, index = front.length + 1 + offset :=
      ⟨index - (front.length + 1), by omega⟩
    obtain ⟨last, hpairs⟩ := hwhole.exists_pairs ((hop offset).symm.trans hunclosed.enter_eq)
    have hbehind := hpairs.behind (front ++ [enter.val])
    rw [← hsplit, List.length_append, List.length_singleton] at hbehind
    exact hunclosed.unpaired _ hbehind

/-- Linking refuses a closing bracket exactly if it is the first that closes nothing. -/
theorem link_eq_exit_iff (program : List Instruction) (index : Nat) :
    link program = .error (.exit index) ↔ FirstExcess program index := by
  have hfares := linkFrom_fares program 0 [] (program.map Instruction.copied).toArray
  rw [← link] at hfares
  generalize hresult : link program = result at hfares
  cases hfares with
  | through le ne =>
    refine ⟨fun h => absurd h (ne index), fun h => ?_⟩
    have := le (index + 1)
    have := h.lt
    simp only [List.length_nil] at *
    omega
  | @stopped offset lt le_before =>
    simp only [List.length_nil, Nat.zero_add, Except.error.injEq, Unbalanced.exit.injEq] at *
    constructor
    · rintro rfl
      exact ⟨lt, le_before⟩
    · intro h
      rcases Nat.lt_trichotomy offset index with hlt | heq | hlt
      · exact absurd (h.le_before (offset + 1) hlt) (by omega)
      · exact heq
      · exact absurd (le_before (index + 1) hlt) (by have := h.lt; omega)

/-- Linking finds a loop open at the end exactly if no bracket closes nothing and this is the last
loop that is never closed. -/
theorem link_eq_enter_iff (program : List Instruction) (index : Nat) :
    link program = .error (.enter index) ↔
      (∀ n, exits (program.take n) ≤ enters (program.take n)) ∧ Unclosed program index ∧
        ∀ later, index < later → ¬ Unclosed program later := by
  have hopen {stop : Nat} (h : link program = .error (.enter stop)) :
      Unclosed program stop ∧ ∀ later, stop < later → ¬ Unclosed program later := by
    rcases linkFrom_enter_cases h with ⟨front, tree, enter, hsplit, hstop⟩ | ⟨depth, -, hnone⟩
    · rw [hstop, Nat.zero_add]
      exact unclosed_of_append hsplit
    · simp at hnone
  constructor
  · intro h
    have hfares := linkFrom_fares program 0 [] (program.map Instruction.copied).toArray
    rw [← link, h] at hfares
    cases hfares with
    | through le ne => exact ⟨by simpa using le, hopen h⟩
  · rintro ⟨hle, hunclosed, hlast⟩
    cases hlink : link program with
    | ok code =>
      have hbalanced := (isOk_link_iff program).mp (by rw [hlink]; rfl)
      obtain ⟨last, hpairs⟩ := hbalanced.exists_pairs hunclosed.enter_eq
      exact absurd hpairs (hunclosed.unpaired last)
    | error unbalanced =>
      cases unbalanced with
      | exit stop =>
        have hexcess := ((link_eq_exit_iff program stop).mp hlink).lt
        exact absurd (hle (stop + 1)) (by omega)
      | enter stop =>
        obtain ⟨hstop, hafter⟩ := hopen hlink
        rcases Nat.lt_trichotomy stop index with hlt | heq | hlt
        · exact absurd hunclosed (hafter index hlt)
        · rw [heq]
        · exact absurd hstop (hlast stop hlt)

end Brackets

/-! ## Where a machine can be -/

namespace Machine

/-- What one move of a machine about its program can be. The program stays. The machine stays too, or
it goes on to the next instruction, or it jumps to behind the instruction that a bracket tells. -/
structure Moves (m next : Machine) : Prop where
  program_eq : next.program = m.program
  pc_cases : next.pc = m.pc ∨ ∃ i, m.program[m.pc]? = some i ∧
    (next.pc = m.pc + 1 ∨ i.op.isLoop = true ∧ next.pc = i.arg.toNat + 1)

/-- Executing the instruction a machine is at is one move. -/
theorem execute_moves {m : Machine} {i : LinkedInstruction} (hat : m.program[m.pc]? = some i) :
    m.Moves (m.execute i).1 := by
  have hpass {next : Machine} (hprogram : next.program = m.program) (hpc : next.pc = m.pc + 1) :
      m.Moves next := ⟨hprogram, .inr ⟨i, hat, .inl hpc⟩⟩
  have hstay {next : Machine} (hprogram : next.program = m.program) (hpc : next.pc = m.pc) :
      m.Moves next := ⟨hprogram, .inl hpc⟩
  have hjump (hbracket : i.op.isLoop = true) : m.Moves (m.jump i.arg) :=
    ⟨rfl, .inr ⟨i, hat, .inr ⟨hbracket, rfl⟩⟩⟩
  unfold execute
  cases hop : i.op with
  | moveCell | moveCursor | nop | undefined => exact hpass rfl rfl
  | print =>
    unfold writeCell
    dsimp only
    split
    · exact hstay rfl rfl
    · exact hpass rfl rfl
  | read =>
    unfold readCell readPastEnd
    dsimp only
    split
    · exact hpass rfl rfl
    · split
      · exact hstay rfl rfl
      · exact hpass rfl rfl
      · exact hpass rfl rfl
      · exact hstay rfl rfl
  | loopEnter =>
    dsimp only
    split
    · exact hjump (by rw [hop]; rfl)
    · exact hpass rfl rfl
  | loopExit =>
    dsimp only
    split
    · exact hpass rfl rfl
    · exact hjump (by rw [hop]; rfl)

/-- A step is one move, also where it fails. -/
theorem step_moves (m : Machine) : m.Moves m.step.1 := by
  unfold step
  split
  · exact ⟨rfl, .inl rfl⟩
  · split
    case h_1 => exact ⟨rfl, .inl rfl⟩
    case h_2 i hat =>
      split
      · exact ⟨rfl, .inl rfl⟩
      · have hmoves := execute_moves (m := { m with steps := m.steps + 1 }) hat
        exact ⟨hmoves.program_eq, hmoves.pc_cases⟩

/-- The machines that steps lead to, one after the other, also where they fail. -/
inductive StepsTo (m : Machine) : Machine → Prop where
  | start : StepsTo m m
  | step {s : Machine} (before : StepsTo m s) : StepsTo m s.step.1

/-- The argument of a bracket of a linked program is the index of one of its instructions. -/
theorem exists_partner_of_links {program : List Instruction} {code : Array LinkedInstruction}
    (h : Brackets.Links program code) {place : Nat} {i : LinkedInstruction} (hat : code[place]? = some i)
    (hbracket : i.op.isLoop = true) : ∃ partner : Nat, i.arg = partner ∧ partner < program.length := by
  have hplace : place < program.length := h.size_eq ▸ (Array.getElem?_eq_some_iff.mp hat).1
  have hthere := List.getElem?_eq_getElem hplace
  obtain ⟨linked, hlinked, hkeeps⟩ := h.kept place _ hthere
  obtain rfl := Option.some.inj (hlinked.symm.trans hat)
  obtain ⟨first, last, hends, hpairs, hjoins⟩ := h.joined place _ hthere (hkeeps.op_eq ▸ hbracket)
  obtain ⟨_, hlast, -⟩ := Option.map_eq_some_iff.mp hpairs.exit_eq
  have hlt := (List.getElem?_eq_some_iff.mp hlast).1
  have harg (partner : Nat) (hpartner : Brackets.argAt code place = some (partner : Int)) :
      linked.arg = partner := by
    rw [Brackets.argAt, hat, Option.map_some] at hpartner
    exact Option.some.inj hpartner
  rcases hends with rfl | rfl
  · exact ⟨last, harg last hjoins.first_eq, hlt⟩
  · exact ⟨first, harg first hjoins.last_eq, Nat.lt_trans hpairs.lt hlt⟩

/-- However many steps a machine takes on a linked program, it stays in the program or is just behind
it. -/
theorem StepsTo.inside {program : List Instruction} {m s : Machine}
    (hlinks : Brackets.Links program m.program) (hpc : m.pc ≤ program.length) (h : m.StepsTo s) :
    s.program = m.program ∧ s.pc ≤ program.length := by
  induction h with
  | start => exact ⟨rfl, hpc⟩
  | @step s _ ih =>
    obtain ⟨hprogram, hpc⟩ := ih
    have hmoves := step_moves s
    refine ⟨hmoves.program_eq.trans hprogram, ?_⟩
    rcases hmoves.pc_cases with hstay | ⟨i, hat, hnext⟩
    · rwa [hstay]
    · rw [hprogram] at hat
      have hlt : s.pc < program.length := hlinks.size_eq ▸ (Array.getElem?_eq_some_iff.mp hat).1
      rcases hnext with hnext | ⟨hbracket, hnext⟩
      · omega
      · obtain ⟨partner, harg, hpartner⟩ := exists_partner_of_links hlinks hat hbracket
        rw [hnext, harg, Int.toNat_natCast]
        omega

end Machine

namespace Brackets

/-- Linking is exact, and makes every jump safe. It accepts just the balanced programs. In its copy of a
program it changes nothing but the arguments of the brackets: the argument of each becomes the index of
the only bracket that whole loops stand between, whatever arguments the brackets had. It refuses a
program for the first bracket that closes nothing, or else for the last loop that is never closed. So a
machine that has loaded a program always has this copy, is at one of its instructions or just behind the
last, and at a bracket finds the index of an instruction to jump to. -/
theorem linking_pairs_exactly (program : List Instruction) :
    ((link program).isOk = true ↔ Balanced program) ∧
    (∀ code, link program = .ok code →
      code.size = program.length ∧
      (∀ (index : Nat) (i : Instruction), program[index]? = some i →
        ∃ linked, code[index]? = some linked ∧ linked.op = i.op ∧ linked.comment = i.comment ∧
          (i.op.isLoop = false → linked.arg = i.arg.toInt)) ∧
      (∀ first, opAt program first = some .loopEnter → ∃ last, Pairs program first last ∧
        argAt code first = some (last : Int) ∧ argAt code last = some (first : Int)) ∧
      (∀ last, opAt program last = some .loopExit → ∃ first, Pairs program first last ∧
        argAt code first = some (last : Int) ∧ argAt code last = some (first : Int)) ∧
      ∀ other linked, other.map Instruction.op = program.map Instruction.op → link other = .ok linked →
        ∀ (index : Nat) (i : Instruction), program[index]? = some i → i.op.isLoop = true →
          argAt linked index = argAt code index) ∧
    (∀ first last other, Pairs program first last → Pairs program first other → last = other) ∧
    (∀ index, link program = .error (.exit index) ↔ FirstExcess program index) ∧
    (∀ index, link program = .error (.enter index) ↔
      (∀ n, exits (program.take n) ≤ enters (program.take n)) ∧ Unclosed program index ∧
        ∀ later, index < later → ¬ Unclosed program later) ∧
    ∀ options m, Machine.load program options = .ok m →
      link program = .ok m.program ∧
      ∀ s, m.StepsTo s →
        s.program = m.program ∧ s.pc ≤ program.length ∧
        (s.isHalted = false → ∃ i, s.program[s.pc]? = some i ∧
          (i.op.isLoop = true → ∃ partner : Nat, i.arg = partner ∧ partner < program.length)) := by
  refine ⟨isOk_link_iff program, fun code hlink => ?_, fun _ _ _ => Pairs.last_unique,
    link_eq_exit_iff program, link_eq_enter_iff program, fun options m hload => ?_⟩
  · have hlinks := links_of_link hlink
    refine ⟨hlinks.size_eq, fun index i hat => ?_, fun first henter => ?_, fun last hexit => ?_,
      fun other linked hops hother index i hat hbracket => ?_⟩
    · obtain ⟨linked, hlinked, hkeeps⟩ := hlinks.kept index i hat
      exact ⟨linked, hlinked, hkeeps.op_eq, hkeeps.comment_eq, hkeeps.arg_eq⟩
    · obtain ⟨last, hpairs, hjoins⟩ := hlinks.of_enter henter
      exact ⟨last, hpairs, hjoins.first_eq, hjoins.last_eq⟩
    · obtain ⟨first, hpairs, hjoins⟩ := hlinks.of_exit hexit
      exact ⟨first, hpairs, hjoins.first_eq, hjoins.last_eq⟩
    · exact hlinks.argAt_congr hops (links_of_link hother) hat hbracket
  · obtain ⟨code, hlink, rfl⟩ := exists_of_map_eq_ok hload
    refine ⟨hlink, fun s hs => ?_⟩
    have hlinks := links_of_link hlink
    obtain ⟨hprogram, hpc⟩ := hs.inside hlinks (Nat.zero_le _)
    refine ⟨hprogram, hpc, fun hrunning => ?_⟩
    have hlt : s.pc < s.program.size := by
      simp only [Machine.isHalted, Bool.or_eq_false_iff, decide_eq_false_iff_not] at hrunning
      omega
    obtain ⟨i, hat⟩ : ∃ i, s.program[s.pc]? = some i := ⟨_, Array.getElem?_eq_getElem hlt⟩
    refine ⟨i, hat, fun hbracket => ?_⟩
    rw [hprogram] at hat
    exact Machine.exists_partner_of_links hlinks hat hbracket

end Brackets

end Tapestry

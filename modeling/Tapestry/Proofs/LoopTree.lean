import Tapestry.Machine.Brackets

/-!
# Programs as nested loops

A program whose brackets pair up is the flat writing of exactly one list of fragments, where
a fragment is a plain instruction or a loop around a list of fragments. Linking accepts just
these programs, and the links it makes are the ends of the loops.

The brackets are kept in the tree with their own arguments and comments, so that writing it
flat gives back the program itself.
-/

namespace Tapestry

/-- An instruction that is no bracket. -/
abbrev PlainInstruction := { i : Instruction // i.op.isLoop = false }

/-- A bracket that opens a loop. -/
abbrev EnterInstruction := { i : Instruction // i.op = .loopEnter }

/-- A bracket that closes a loop. -/
abbrev ExitInstruction := { i : Instruction // i.op = .loopExit }

/-- A piece of a program with balanced brackets. -/
inductive Fragment where
  | plain (instruction : PlainInstruction)
  /-- A loop, with its two brackets. -/
  | loop (enter : EnterInstruction) (exit : ExitInstruction) (body : List Fragment)

namespace Fragment

mutual

/-- The instructions of one fragment in program order. -/
def instructions : Fragment → List Instruction
  | plain instruction => [instruction.val]
  | loop enter exit body => enter.val :: flatten body ++ [exit.val]

/-- The instructions of fragments in program order. -/
def flatten : List Fragment → List Instruction
  | [] => []
  | fragment :: rest => fragment.instructions ++ flatten rest

end

@[simp] theorem flatten_nil : flatten [] = [] := by rw [flatten]

@[simp] theorem flatten_plain (i : PlainInstruction) (rest : List Fragment) :
    flatten (plain i :: rest) = i.val :: flatten rest := by
  rw [flatten, instructions, List.singleton_append]

@[simp] theorem flatten_loop (enter : EnterInstruction) (exit : ExitInstruction)
    (body rest : List Fragment) :
    flatten (loop enter exit body :: rest) =
      enter.val :: (flatten body ++ exit.val :: flatten rest) := by
  simp only [flatten, instructions, List.cons_append, List.append_assoc, List.nil_append]

/-- Induction over fragments in program order, with the body of a loop before what follows. -/
theorem forestInduction {motive : List Fragment → Prop} (nil : motive [])
    (plain : ∀ i rest, motive rest → motive (plain i :: rest))
    (loop : ∀ enter exit body rest, motive body → motive rest →
      motive (loop enter exit body :: rest)) : (tree : List Fragment) → motive tree
  | [] => nil
  | .plain i :: rest => plain i rest (forestInduction nil plain loop rest)
  | .loop enter exit body :: rest =>
    loop enter exit body rest (forestInduction nil plain loop body)
      (forestInduction nil plain loop rest)

/-! ## One tree for each program -/

/-- Nothing, or instructions that begin by closing a loop: what can follow a loop's body. -/
def Closing (rest : List Instruction) : Prop := ∀ i ∈ rest.head?, i.op = .loopExit

@[simp] theorem closing_nil : Closing [] := by simp [Closing]

@[simp] theorem closing_cons (i : Instruction) (rest : List Instruction) :
    Closing (i :: rest) ↔ i.op = .loopExit := by
  simp [Closing]

/-- A plain instruction opens no loop. -/
theorem plain_ne_enter (i : PlainInstruction) (enter : EnterInstruction) : i.val ≠ enter.val := by
  intro h
  have hplain := i.property
  rw [h, enter.property] at hplain
  cases hplain

/-- Only the empty tree can stand before something that closes a loop and leave it in front. -/
theorem eq_nil_of_closing (tree : List Fragment) (rest : List Instruction)
    (h : Closing (flatten tree ++ rest)) : tree = [] := by
  match tree with
  | [] => rfl
  | plain i :: tail =>
    have hexit : i.val.op = .loopExit := by simpa using h
    have hplain := i.property
    simp [hexit, Opcode.isLoop] at hplain
  | loop enter exit body :: tail =>
    have hexit : enter.val.op = .loopExit := by simpa using h
    simp [enter.property] at hexit

/-- A program starts with at most one balanced part that the end or a closing bracket follows. -/
theorem flatten_append_inj (tree other : List Fragment) (rest others : List Instruction)
    (hrest : Closing rest) (hothers : Closing others)
    (h : flatten tree ++ rest = flatten other ++ others) : tree = other ∧ rest = others := by
  induction tree using forestInduction generalizing other rest others with
  | nil =>
    have hnil : other = [] := eq_nil_of_closing other others (by simpa [← h] using hrest)
    subst hnil
    exact ⟨rfl, by simpa using h⟩
  | plain i tail ih =>
    match other with
    | [] =>
      have hnil := eq_nil_of_closing (plain i :: tail) rest (by rw [h]; simpa using hothers)
      cases hnil
    | plain j :: tail' =>
      simp only [flatten_plain, List.cons_append, List.cons.injEq] at h
      obtain ⟨rfl, rfl⟩ := ih tail' rest others hrest hothers h.2
      exact ⟨by rw [Subtype.ext h.1], rfl⟩
    | loop enter exit body :: tail' =>
      simp only [flatten_plain, flatten_loop, List.cons_append, List.cons.injEq] at h
      exact absurd h.1 (plain_ne_enter i enter)
  | loop enter exit body tail ihBody ihTail =>
    match other with
    | [] =>
      have hnil := eq_nil_of_closing (loop enter exit body :: tail) rest
        (by rw [h]; simpa using hothers)
      cases hnil
    | plain j :: tail' =>
      simp only [flatten_plain, flatten_loop, List.cons_append, List.cons.injEq] at h
      exact absurd h.1.symm (plain_ne_enter j enter)
    | loop enter' exit' body' :: tail' =>
      simp only [flatten_loop, List.cons_append, List.append_assoc, List.cons.injEq] at h
      obtain ⟨rfl, hbehind⟩ := ihBody body' _ _ (by simp [exit.property]) (by simp [exit'.property]) h.2
      simp only [List.cons.injEq] at hbehind
      obtain ⟨rfl, rfl⟩ := ihTail tail' rest others hrest hothers hbehind.2
      exact ⟨by rw [Subtype.ext h.1, Subtype.ext hbehind.1], rfl⟩

/-- Different trees are written differently. -/
theorem flatten_injective : Function.Injective flatten := by
  intro tree other h
  exact (flatten_append_inj tree other [] [] closing_nil closing_nil (by simpa using h)).1

/-! ## How linking goes through a program -/

/-- Linking passes over a plain instruction. -/
theorem linkFrom_plain (i : PlainInstruction) (index : Nat) (opened : List Nat)
    (code : Array LinkedInstruction) (rest : List Instruction) :
    Brackets.linkFrom index opened code (i.val :: rest) =
      Brackets.linkFrom (index + 1) opened code rest := by
  obtain ⟨⟨op, arg, comment⟩, hplain⟩ := i
  cases op with
  | loopEnter | loopExit => cases hplain
  | _ => simp [Brackets.linkFrom]

/-- Linking remembers where a loop was opened. -/
theorem linkFrom_enter (enter : EnterInstruction) (index : Nat) (opened : List Nat)
    (code : Array LinkedInstruction) (rest : List Instruction) :
    Brackets.linkFrom index opened code (enter.val :: rest) =
      Brackets.linkFrom (index + 1) (index :: opened) code rest := by
  simp [Brackets.linkFrom, enter.property]

/-- Linking joins a closing bracket and the innermost open loop. -/
theorem linkFrom_exit (exit : ExitInstruction) (index start : Nat) (opened : List Nat)
    (code : Array LinkedInstruction) (rest : List Instruction) :
    Brackets.linkFrom index (start :: opened) code (exit.val :: rest) =
      Brackets.linkFrom (index + 1) opened
        (Brackets.setArg (Brackets.setArg code start index) index start) rest := by
  simp [Brackets.linkFrom, exit.property]

/-- Linking refuses a closing bracket when no loop is open. -/
theorem linkFrom_exit_nil (exit : ExitInstruction) (index : Nat) (code : Array LinkedInstruction)
    (rest : List Instruction) :
    Brackets.linkFrom index [] code (exit.val :: rest) = .error (.exit index) := by
  simp [Brackets.linkFrom, exit.property]

/-! ## Accepted programs have a tree -/

/-- Instructions that close `depth` loops, one after the other, with balanced parts between. -/
def Closes : (depth : Nat) → List Instruction → Prop
  | 0, program => ∃ tree, program = flatten tree
  | depth + 1, program =>
    ∃ tree, ∃ exit : ExitInstruction, ∃ rest,
      program = flatten tree ++ exit.val :: rest ∧ Closes depth rest

/-- A plain instruction joins the balanced part it stands before. -/
theorem closes_plain (i : PlainInstruction) (depth : Nat) (program : List Instruction)
    (h : Closes depth program) : Closes depth (i.val :: program) := by
  cases depth with
  | zero =>
    obtain ⟨tree, rfl⟩ := h
    exact ⟨plain i :: tree, by simp⟩
  | succ depth =>
    obtain ⟨tree, exit, rest, rfl, hrest⟩ := h
    exact ⟨plain i :: tree, exit, rest, by simp, hrest⟩

/-- An opening bracket takes the first balanced part and its closing bracket for a loop. -/
theorem closes_enter (enter : EnterInstruction) (depth : Nat) (program : List Instruction)
    (h : Closes (depth + 1) program) : Closes depth (enter.val :: program) := by
  obtain ⟨body, exit, rest, rfl, hrest⟩ := h
  cases depth with
  | zero =>
    obtain ⟨tree, rfl⟩ := hrest
    exact ⟨loop enter exit body :: tree, by simp⟩
  | succ depth =>
    obtain ⟨tree, last, behind, rfl, hbehind⟩ := hrest
    exact ⟨loop enter exit body :: tree, last, behind, by simp, hbehind⟩

/-- What linking accepts closes every loop that is open. -/
theorem closes_of_linkFrom (program : List Instruction) (index : Nat) (opened : List Nat)
    (code result : Array LinkedInstruction)
    (h : Brackets.linkFrom index opened code program = .ok result) :
    Closes opened.length program := by
  induction program generalizing index opened code with
  | nil =>
    cases opened with
    | nil => exact ⟨[], by simp⟩
    | cons enter outer => simp [Brackets.linkFrom] at h
  | cons i rest ih =>
    by_cases henter : i.op = .loopEnter
    · rw [linkFrom_enter ⟨i, henter⟩] at h
      exact closes_enter ⟨i, henter⟩ _ _ (ih _ _ _ h)
    by_cases hexit : i.op = .loopExit
    · cases opened with
      | nil =>
        rw [linkFrom_exit_nil ⟨i, hexit⟩] at h
        cases h
      | cons start outer =>
        rw [linkFrom_exit ⟨i, hexit⟩] at h
        exact ⟨[], ⟨i, hexit⟩, rest, by simp, ih _ _ _ h⟩
    · have hplain : i.op.isLoop = false := by
        cases hop : i.op <;> simp_all [Opcode.isLoop]
      rw [linkFrom_plain ⟨i, hplain⟩] at h
      exact closes_plain ⟨i, hplain⟩ _ _ (ih _ _ _ h)

/-- A program that linking accepts is the writing of a tree. -/
theorem exists_flatten_eq_of_link (program : List Instruction) (code : Array LinkedInstruction)
    (h : Brackets.link program = .ok code) : ∃ tree, flatten tree = program := by
  obtain ⟨tree, htree⟩ := closes_of_linkFrom program 0 [] _ code h
  exact ⟨tree, htree.symm⟩

/-! ## The links of a tree -/

/-- The links that the loops of a tree write into a copy of a program where it stands from `index`
on. -/
def fill : (index : Nat) → (code : Array LinkedInstruction) → List Fragment → Array LinkedInstruction
  | _, code, [] => code
  | index, code, plain _ :: rest => fill (index + 1) code rest
  | index, code, loop _ _ body :: rest =>
    let last := index + 1 + (flatten body).length
    fill (last + 1) (Brackets.setArg (Brackets.setArg (fill (index + 1) code body) index last) last index)
      rest

/-- Linking a tree makes just its own links and goes on behind it. -/
theorem linkFrom_flatten_append (tree : List Fragment) (index : Nat) (opened : List Nat)
    (code : Array LinkedInstruction) (rest : List Instruction) :
    Brackets.linkFrom index opened code (flatten tree ++ rest) =
      Brackets.linkFrom (index + (flatten tree).length) opened (fill index code tree) rest := by
  induction tree using forestInduction generalizing index opened code rest with
  | nil => simp [fill]
  | plain i tail ih =>
    rw [flatten_plain, List.cons_append, linkFrom_plain, ih, fill, List.length_cons]
    congr 1
    omega
  | loop enter exit body tail ihBody ihTail =>
    rw [flatten_loop, List.cons_append, linkFrom_enter, List.append_assoc, List.cons_append, ihBody,
      linkFrom_exit, ihTail, fill]
    congr 1
    simp only [List.length_cons, List.length_append]
    omega

/-- Linking the writing of a tree writes the links of its loops. -/
theorem link_flatten (tree : List Fragment) :
    Brackets.link (flatten tree) =
      .ok (fill 0 ((flatten tree).map Instruction.copied).toArray tree) := by
  have h := linkFrom_flatten_append tree 0 [] ((flatten tree).map Instruction.copied).toArray []
  rw [List.append_nil] at h
  rw [Brackets.link, h, Brackets.linkFrom]

/-- Overwriting an argument keeps the size. -/
@[simp]
theorem size_setArg (code : Array LinkedInstruction) (place index : Nat) :
    (Brackets.setArg code place index).size = code.size := Array.size_modify

/-- Overwriting an argument leaves the other instructions alone. -/
theorem getElem?_setArg_of_ne (code : Array LinkedInstruction) {place other : Nat} (index : Nat)
    (h : place ≠ other) : (Brackets.setArg code place index)[other]? = code[other]? := by
  rw [Brackets.setArg, Array.getElem?_modify, if_neg h]

/-- The instruction whose argument has been overwritten. -/
theorem getElem?_setArg (code : Array LinkedInstruction) (place index : Nat) :
    (Brackets.setArg code place index)[place]? =
      code[place]?.map fun instruction => { instruction with arg := index } := by
  rw [Brackets.setArg, Array.getElem?_modify, if_pos rfl]

/-- Writing links keeps the size. -/
@[simp]
theorem size_fill (tree : List Fragment) (index : Nat) (code : Array LinkedInstruction) :
    (fill index code tree).size = code.size := by
  induction tree using forestInduction generalizing index code with
  | nil => rw [fill]
  | plain i tail ih => rw [fill, ih]
  | loop enter exit body tail ihBody ihTail => rw [fill, ihTail, size_setArg, size_setArg, ihBody]

/-- Only the indexes that a tree covers are linked for it. -/
theorem getElem?_fill_of_outside (tree : List Fragment) (index : Nat) (code : Array LinkedInstruction)
    (place : Nat) (h : place < index ∨ index + (flatten tree).length ≤ place) :
    (fill index code tree)[place]? = code[place]? := by
  induction tree using forestInduction generalizing index code with
  | nil => rw [fill]
  | plain i tail ih =>
    rw [flatten_plain, List.length_cons] at h
    rw [fill, ih _ _ (by omega)]
  | loop enter exit body tail ihBody ihTail =>
    rw [flatten_loop, List.length_cons, List.length_append, List.length_cons] at h
    rw [fill, ihTail _ _ (by omega), getElem?_setArg_of_ne _ _ (by omega),
      getElem?_setArg_of_ne _ _ (by omega), ihBody _ _ (by omega)]

/-- A tree stands in a linked program from `index` on: its plain instructions are as they were, and the
arguments of the two brackets of a loop are the indexes of each other. -/
inductive Placed (code : Array LinkedInstruction) : (index : Nat) → List Fragment → Prop
  | nil {index} : Placed code index []
  | plain {index i rest} (at_eq : code[index]? = some i.val.copied)
      (behind : Placed code (index + 1) rest) : Placed code index (plain i :: rest)
  | loop {index last enter exit body rest} (last_eq : last = index + 1 + (flatten body).length)
      (enter_eq : code[index]? = some (enter.val.linkedTo last))
      (exit_eq : code[last]? = some (exit.val.linkedTo index))
      (inside : Placed code (index + 1) body) (behind : Placed code (last + 1) rest) :
      Placed code index (loop enter exit body :: rest)

/-- Where a tree stands depends only on the indexes it covers. -/
theorem Placed.congr {tree : List Fragment} {index : Nat} {code other : Array LinkedInstruction}
    (h : Placed code index tree)
    (hsame : ∀ place, index ≤ place → place < index + (flatten tree).length →
      other[place]? = code[place]?) : Placed other index tree := by
  induction h with
  | nil => exact .nil
  | plain at_eq _ ih =>
    rw [flatten_plain, List.length_cons] at hsame
    refine .plain ?_ (ih fun place hlo hhi => hsame place (by omega) (by omega))
    rw [hsame _ (by omega) (by omega), at_eq]
  | loop last_eq enter_eq exit_eq _ _ ihBody ihTail =>
    rw [flatten_loop, List.length_cons, List.length_append, List.length_cons] at hsame
    refine .loop last_eq ?_ ?_ ?_ ?_
    · rw [hsame _ (by omega) (by omega), enter_eq]
    · rw [hsame _ (by omega) (by omega), exit_eq]
    · exact ihBody fun place hlo hhi => hsame place (by omega) (by omega)
    · exact ihTail fun place hlo hhi => hsame place (by omega) (by omega)

/-- With its links written, a tree stands where it was copied to. -/
theorem placed_fill (tree : List Fragment) (index : Nat) (code : Array LinkedInstruction)
    (hcopied : ∀ offset i, (flatten tree)[offset]? = some i → code[index + offset]? = some i.copied) :
    Placed (fill index code tree) index tree := by
  induction tree using forestInduction generalizing index code with
  | nil => exact .nil
  | plain i tail ih =>
    rw [flatten_plain] at hcopied
    rw [fill]
    refine .plain ?_ (ih (index + 1) code fun offset j hj => ?_)
    · rw [getElem?_fill_of_outside _ _ _ _ (by omega)]
      exact hcopied 0 i.val rfl
    · rw [Nat.add_assoc, Nat.add_comm 1 offset]
      exact hcopied (offset + 1) j (by simpa using hj)
  | loop enter exit body tail ihBody ihTail =>
    rw [flatten_loop] at hcopied
    rw [fill]
    -- What is written outside the body and outside the tail leaves them as they are.
    have hinside (offset : Nat) (j : Instruction) (hj : (flatten body)[offset]? = some j) :
        code[index + 1 + offset]? = some j.copied := by
      have hlt := (List.getElem?_eq_some_iff.mp hj).1
      rw [Nat.add_assoc, Nat.add_comm 1 offset]
      exact hcopied (offset + 1) j (by rw [List.getElem?_cons_succ, List.getElem?_append_left hlt, hj])
    have hexit : code[index + 1 + (flatten body).length]? = some exit.val.copied := by
      rw [Nat.add_assoc, Nat.add_comm 1]
      exact hcopied _ exit.val (by simp)
    have hbehind (offset : Nat) (j : Instruction) (hj : (flatten tail)[offset]? = some j) :
        code[index + 1 + (flatten body).length + 1 + offset]? = some j.copied := by
      have hplace : index + 1 + (flatten body).length + 1 + offset =
          index + ((flatten body).length + (offset + 1) + 1) := by omega
      rw [hplace]
      refine hcopied _ j ?_
      rw [List.getElem?_cons_succ, List.getElem?_append_right (by omega), Nat.add_sub_cancel_left,
        List.getElem?_cons_succ, hj]
    refine .loop rfl ?_ ?_ ?_ ?_
    · rw [getElem?_fill_of_outside _ _ _ _ (by omega), getElem?_setArg_of_ne _ _ (by omega),
        getElem?_setArg, getElem?_fill_of_outside _ _ _ _ (by omega)]
      have henter := hcopied 0 enter.val rfl
      rw [Nat.add_zero] at henter
      rw [henter]
      rfl
    · rw [getElem?_fill_of_outside _ _ _ _ (by omega), getElem?_setArg,
        getElem?_setArg_of_ne _ _ (by omega), getElem?_fill_of_outside _ _ _ _ (by omega), hexit]
      rfl
    · refine (ihBody (index + 1) code hinside).congr fun place hlo hhi => ?_
      rw [getElem?_fill_of_outside _ _ _ _ (by omega), getElem?_setArg_of_ne _ _ (by omega),
        getElem?_setArg_of_ne _ _ (by omega)]
    · refine ihTail _ _ fun offset j hj => ?_
      rw [getElem?_setArg_of_ne _ _ (by omega), getElem?_setArg_of_ne _ _ (by omega),
        getElem?_fill_of_outside _ _ _ _ (by omega)]
      exact hbehind offset j hj

/-- A linked program that is all written from a tree. -/
structure IsCode (code : Array LinkedInstruction) (tree : List Fragment) : Prop where
  placed : Placed code 0 tree
  size_eq : code.size = (flatten tree).length

/-- The writing of a tree is accepted, and stands in the linked program. -/
theorem exists_link_flatten (tree : List Fragment) :
    ∃ code, Brackets.link (flatten tree) = .ok code ∧ IsCode code tree := by
  refine ⟨_, link_flatten tree, placed_fill tree 0 _ fun offset i hi => ?_, by simp⟩
  rw [Nat.zero_add, List.getElem?_toArray, List.getElem?_map, hi, Option.map_some]

/-- A program that linking accepts is written from a tree, and so is the linked program. -/
theorem exists_isCode_of_link {program : List Instruction} {code : Array LinkedInstruction}
    (h : Brackets.link program = .ok code) : ∃ tree, flatten tree = program ∧ IsCode code tree := by
  obtain ⟨tree, rfl⟩ := exists_flatten_eq_of_link program code h
  obtain ⟨linked, hlinked, hcode⟩ := exists_link_flatten tree
  obtain rfl : linked = code := Except.ok.inj (hlinked.symm.trans h)
  exact ⟨tree, rfl, hcode⟩

/-- Linking accepts a program exactly if it is the writing of a tree. -/
theorem link_isOk_iff (program : List Instruction) :
    (Brackets.link program).isOk ↔ ∃ tree, flatten tree = program := by
  constructor
  · intro h
    cases hlink : Brackets.link program with
    | error unbalanced => simp [hlink, Except.isOk, Except.toBool] at h
    | ok code => exact exists_flatten_eq_of_link program code hlink
  · rintro ⟨tree, rfl⟩
    rw [link_flatten]
    rfl

end Fragment

end Tapestry

import Tapestry.Proofs.SymbolMeaning

/-!
# Programs that symbols spell exactly

Writing what was read from a text gives the text without the bytes that are no symbols. Reading
what a program was written as gives the program back exactly if it is normal: each instruction is
one that reading makes, and no two neighbours go the same way, since reading would make one
move of them.

Reading never makes more instructions than were written. A program that is not normal comes back
shorter, or with other arguments or without its comments.
-/

namespace Tapestry

/-- The arguments with which reading makes an operation. -/
def Opcode.admits : Opcode → Int64 → Bool
  | nop, _ | undefined _, _ => false
  | moveCell, arg | moveCursor, arg => arg != 0 && arg != Int64.minValue
  | print, arg | read, arg => arg == 0
  | loopEnter, arg | loopExit, arg => arg == -1

/-- Moves of one sort with arguments of one sign. -/
def Instruction.SameWay (first next : Instruction) : Prop :=
  first.op.isCounted ∧ first.op = next.op ∧ (first.arg < 0 ↔ next.arg < 0)

namespace Symbols

variable {i : Instruction} {length : Nat} {symbol : UInt8} {op : Opcode}
  {program : List Instruction} {rest : Text}

/-- The eight symbols. -/
def alphabet : Text := "+-<>.,[]"

/-- A program without comments whose arguments are those that reading makes, and whose
neighbouring moves cannot be joined. -/
structure Normal (program : List Instruction) : Prop where
  admitted : ∀ i ∈ program, i.op.admits i.arg
  uncommented : ∀ i ∈ program, i.comment = []
  apart : program.IsChain fun first next => ¬first.SameWay next

/-- The empty program is normal. -/
theorem normal_nil : Normal [] := ⟨by simp, by simp, .nil⟩

/-- A program is normal if its first instruction is, the rest is, and the two cannot be joined. -/
theorem normal_cons :
    Normal (i :: program) ↔ i.op.admits i.arg ∧ i.comment = [] ∧ Normal program ∧
      ∀ next ∈ program.head?, ¬i.SameWay next := by
  constructor
  · intro h
    obtain ⟨hadmitted, hadmittedRest⟩ := List.forall_mem_cons.mp h.admitted
    obtain ⟨huncommented, huncommentedRest⟩ := List.forall_mem_cons.mp h.uncommented
    obtain ⟨hfirst, hapart⟩ := List.isChain_cons.mp h.apart
    exact ⟨hadmitted, huncommented, ⟨hadmittedRest, huncommentedRest, hapart⟩, hfirst⟩
  · rintro ⟨hadmitted, huncommented, hrest, hfirst⟩
    exact ⟨List.forall_mem_cons.mpr ⟨hadmitted, hrest.admitted⟩,
      List.forall_mem_cons.mpr ⟨huncommented, hrest.uncommented⟩,
      List.isChain_cons.mpr ⟨hfirst, hrest.apart⟩⟩

/-! ## Runs of one symbol -/

/-- A text is a run of a byte, perhaps empty, and a rest that does not go on with it. -/
theorem exists_run (symbol : UInt8) (text : Text) :
    ∃ length rest, text = List.replicate length symbol ++ rest ∧ rest.head? ≠ some symbol := by
  induction text with
  | nil => exact ⟨0, [], rfl, by simp⟩
  | cons b text ih =>
    by_cases hb : b = symbol
    · obtain ⟨length, rest, rfl, hrest⟩ := ih
      exact ⟨length + 1, rest, by rw [hb, List.replicate_succ, List.cons_append], hrest⟩
    · exact ⟨0, b :: text, rfl, by simpa using hb⟩

/-- A run that ends is read by itself. -/
theorem read_run (hlength : 0 < length) (hrest : rest.head? ≠ some symbol) :
    read (List.replicate length symbol ++ rest) = ofRun symbol length ++ read rest := by
  have hne : List.replicate length symbol ≠ [] := by simp; omega
  have hequal : (List.replicate length symbol).IsChain fun a b => (a == b) = true := by
    simp [List.isChain_replicate_of_rel]
  have hends : ∀ a ∈ (List.replicate length symbol).getLast?, ∀ b ∈ rest.head?, (a == b) = false := by
    intro a ha b hb
    obtain rfl : a = symbol := List.eq_of_mem_replicate (List.mem_of_getLast? ha)
    rw [beq_eq_false_iff_ne]
    rintro rfl
    exact hrest hb
  have hhead : (List.replicate length symbol).headD 0 = symbol := by
    obtain ⟨n, rfl⟩ := Nat.exists_eq_succ_of_ne_zero (by omega : length ≠ 0)
    rfl
  rw [read, List.splitBy_append hends, List.splitBy_of_isChain hne hequal, List.flatMap_append,
    List.flatMap_singleton, hhead, List.length_replicate]
  rfl

/-- Symbols that are not counted are read one by one. -/
theorem read_unit {unit : Instruction}
    (hunit : ∀ length, ofRun symbol length = List.replicate length unit) (rest : Text) :
    read (symbol :: rest) = unit :: read rest := by
  obtain ⟨length, rest, rfl, hrest⟩ := exists_run symbol rest
  have hread (n : Nat) : read (List.replicate n symbol ++ rest) = List.replicate n unit ++ read rest := by
    cases n with
    | zero => rfl
    | succ n => rw [read_run n.succ_pos hrest, hunit]
  rw [hread, ← List.cons_append, ← List.replicate_succ, hread, List.replicate_succ, List.cons_append]

/-- A run in front of the same symbol makes no instruction more. -/
theorem length_read_joined (hmove : ∀ length, (ofRun symbol length).length = 1) (length : Nat)
    (hrest : rest.head? = some symbol) :
    (read (List.replicate length symbol ++ rest)).length = (read rest).length := by
  obtain ⟨more, rest, rfl, hend⟩ := exists_run symbol rest
  have hmore : 0 < more := by
    rcases Nat.eq_zero_or_pos more with rfl | hmore
    · exact absurd hrest hend
    · exact hmore
  rw [← List.append_assoc, ← List.replicate_add, read_run (by omega) hend, read_run hmore hend,
    List.length_append, List.length_append, hmove, hmove]

/-! ## The symbols of an instruction -/

/-- The symbol of an operation in one of the two directions, which only moves have. -/
def symbolFor (op : Opcode) (backward : Bool) : Option UInt8 :=
  if op.isCounted && backward then op.negative? else op.symbol?

/-- The symbol that an instruction is written with, however often. -/
def symbolOf (i : Instruction) : Option UInt8 := symbolFor i.op (i.arg < 0)

/-- Every sort and direction of move has a symbol of its own. -/
theorem symbolFor_eq_iff {other : Opcode} (hcounted : op.isCounted) (backward backward' : Bool) :
    symbolFor op backward = symbolFor other backward' ↔ op = other ∧ backward = backward' := by
  cases op <;> cases other <;> cases backward <;> cases backward' <;>
    simp_all [symbolFor, Opcode.isCounted, Opcode.symbol?, Opcode.negative?]

/-- A move goes the same way as an instruction exactly if they are written with one symbol. -/
theorem sameWay_iff {first next : Instruction} (hcounted : first.op.isCounted) :
    first.SameWay next ↔ symbolOf first = symbolOf next := by
  rw [symbolOf, symbolOf, symbolFor_eq_iff hcounted, decide_eq_decide, Instruction.SameWay,
    and_iff_right hcounted]

/-- A move is written without symbols if there is nothing to move, and for the least word. -/
theorem count_eq_zero_iff (arg : Int64) : count arg = 0 ↔ arg = 0 ∨ arg = Int64.minValue := by
  constructor
  · intro hzero
    by_cases hleast : arg = Int64.minValue
    · exact .inr hleast
    · have harg := ofInt_count arg hleast
      rw [hzero] at harg
      exact .inl (by simpa using harg.symm)
  · rintro (rfl | rfl) <;> decide

/-- The moves that reading makes are those that are written with symbols. -/
theorem admits_iff_of_isCounted (hcounted : op.isCounted) (arg : Int64) :
    op.admits arg ↔ count arg ≠ 0 := by
  rw [Ne, count_eq_zero_iff, not_or]
  cases op with
  | moveCell | moveCursor => simp [Opcode.admits]
  | nop | print | read | loopEnter | loopExit | undefined rest => cases hcounted

/-- A run of the symbol of a move is read as one move over its length. -/
theorem ofRun_symbolFor (hcounted : op.isCounted) (backward : Bool) :
    ∃ symbol, symbolFor op backward = some symbol ∧ ∀ length : Nat,
      ofRun symbol length = [⟨op, .ofInt (length * (if backward then -1 else 1)), []⟩] := by
  cases op with
  | moveCell =>
    cases backward with
    | true => exact ⟨45, rfl, fun length => by simp [ofRun, Instruction.moveCell]⟩
    | false => exact ⟨43, rfl, fun length => by simp [ofRun, Instruction.moveCell]⟩
  | moveCursor =>
    cases backward with
    | true => exact ⟨60, rfl, fun length => by simp [ofRun, Instruction.moveCursor]⟩
    | false => exact ⟨62, rfl, fun length => by simp [ofRun, Instruction.moveCursor]⟩
  | nop | print | read | loopEnter | loopExit | undefined rest => cases hcounted

/-- A move repeats its symbol. -/
theorem ofInstruction_of_isCounted (hcounted : i.op.isCounted) (hsymbol : symbolOf i = some symbol) :
    ofInstruction i = List.replicate (count i.arg) symbol := by
  rw [ofInstruction, if_pos hcounted]
  congr 1
  rw [symbolOf, symbolFor, hcounted, Bool.true_and] at hsymbol
  by_cases hneg : i.arg < 0
  · rw [if_pos hneg]
    rw [if_pos (by simpa using hneg)] at hsymbol
    rw [hsymbol, Option.getD_some]
  · rw [if_neg hneg]
    rw [if_neg (by simpa using hneg)] at hsymbol
    rw [hsymbol, Option.getD_some]

/-- Reading a program that begins with a move: the move is read by itself, unless there is none or
the rest goes on with its symbol. -/
theorem read_write_move (hcounted : i.op.isCounted) (program : List Instruction) :
    ((read (write (i :: program))).length = (read (write program)).length ∧
      (i.op.admits i.arg = false ∨ (write program).head? = symbolOf i)) ∨
    (read (write (i :: program)) = ⟨i.op, i.arg, []⟩ :: read (write program) ∧
      i.op.admits i.arg ∧ (write program).head? ≠ symbolOf i) := by
  obtain ⟨symbol, hsymbol, hrun⟩ := ofRun_symbolFor hcounted (i.arg < 0)
  have hwrite : write (i :: program) = List.replicate (count i.arg) symbol ++ write program := by
    rw [write, List.flatMap_cons, ofInstruction_of_isCounted hcounted hsymbol]
    rfl
  have hadmits := admits_iff_of_isCounted hcounted i.arg
  rw [hwrite, symbolOf, hsymbol]
  by_cases hjoined : (write program).head? = some symbol
  · refine .inl ⟨length_read_joined (fun length => ?_) _ hjoined, .inr hjoined⟩
    rw [hrun]
    rfl
  by_cases hcount : count i.arg = 0
  · refine .inl ⟨by rw [hcount]; rfl, .inl ?_⟩
    rw [← Bool.not_eq_true, hadmits, not_not]
    exact hcount
  · have hleast : i.arg ≠ Int64.minValue := fun hleast =>
      hcount ((count_eq_zero_iff i.arg).mpr (.inr hleast))
    refine .inr ⟨?_, hadmits.mpr hcount, hjoined⟩
    have harg := ofInt_count i.arg hleast
    rw [read_run (by omega) hjoined, hrun]
    simp only [decide_eq_true_eq, harg]
    rfl

/-- An instruction is the one made for its operation if its argument is and it has no comment. -/
theorem made_eq_iff (op : Opcode) (made arg : Int64) (comment : Text) :
    (⟨op, made, []⟩ : Instruction) = ⟨op, arg, comment⟩ ↔ (arg == made) = true ∧ comment = [] := by
  rw [Instruction.mk.injEq, and_iff_right rfl, beq_iff_eq, @eq_comm _ made, @eq_comm _ []]

/-- Reading a program that begins with anything else: what has a symbol is read anew. -/
theorem read_write_other (hcounted : i.op.isCounted = false) (program : List Instruction) :
    (read (write (i :: program)) = read (write program) ∧ i.op.admits i.arg = false) ∨
    ∃ made, read (write (i :: program)) = made :: read (write program) ∧
      (made = i ↔ i.op.admits i.arg ∧ i.comment = []) := by
  obtain ⟨op, arg, comment⟩ := i
  have hwrite : write (⟨op, arg, comment⟩ :: program) = op.symbol?.toList ++ write program := by
    rw [write, List.flatMap_cons, ofInstruction, if_neg (by simpa using hcounted)]
    rfl
  rw [hwrite]
  cases op with
  | nop | undefined rest => exact .inl ⟨rfl, rfl⟩
  | print =>
    exact .inr ⟨.print, read_unit (fun _ => rfl) _, made_eq_iff _ _ _ _⟩
  | read =>
    exact .inr ⟨.read, read_unit (fun _ => rfl) _, made_eq_iff _ _ _ _⟩
  | loopEnter =>
    exact .inr ⟨.loopEnter, read_unit (fun _ => rfl) _, made_eq_iff _ _ _ _⟩
  | loopExit =>
    exact .inr ⟨.loopExit, read_unit (fun _ => rfl) _, made_eq_iff _ _ _ _⟩
  | moveCell | moveCursor => cases hcounted

/-- What comes back for an instruction in front of a program: nothing more if it cannot be read or
is joined to what follows, else one instruction, which is the same only if it is normal. -/
theorem read_write_cons (i : Instruction) (program : List Instruction) :
    ((read (write (i :: program))).length = (read (write program)).length ∧
      (i.op.admits i.arg = false ∨ i.op.isCounted ∧ (write program).head? = symbolOf i)) ∨
    ∃ made, read (write (i :: program)) = made :: read (write program) ∧
      (made = i ↔ i.op.admits i.arg ∧ i.comment = []) ∧
        (i.op.isCounted → (write program).head? ≠ symbolOf i) := by
  cases hcounted : i.op.isCounted with
  | true =>
    rcases read_write_move hcounted program with ⟨hlength, hwhy⟩ | ⟨hread, hadmits, hapart⟩
    · exact .inl ⟨hlength, hwhy.imp_right fun hjoined => ⟨rfl, hjoined⟩⟩
    · refine .inr ⟨_, hread, ?_, fun _ => hapart⟩
      rw [and_iff_right hadmits]
      exact (made_eq_iff i.op i.arg i.arg i.comment).trans (and_iff_right (beq_self_eq_true i.arg))
  | false =>
    rcases read_write_other hcounted program with ⟨hread, hadmits⟩ | ⟨made, hread, hmade⟩
    · exact .inl ⟨by rw [hread], .inl hadmits⟩
    · exact .inr ⟨made, hread, hmade, fun h => by cases h⟩

/-! ## Normal programs come back -/

/-- Reading makes no more instructions than were written. -/
theorem length_read_write_le (program : List Instruction) :
    (read (write program)).length ≤ program.length := by
  induction program with
  | nil => exact Nat.le_refl 0
  | cons i program ih =>
    rw [List.length_cons]
    rcases read_write_cons i program with ⟨hlength, _⟩ | ⟨made, hread, _⟩
    · omega
    · rw [hread, List.length_cons]
      omega

/-- A normal program is written with the symbol of its first instruction first. -/
theorem head?_write (h : Normal program) : (write program).head? = program.head?.bind symbolOf := by
  cases program with
  | nil => rfl
  | cons i program =>
    have hadmits : i.op.admits i.arg := (normal_cons.mp h).1
    rw [write, List.flatMap_cons, List.head?_cons, Option.bind_some]
    cases hcounted : i.op.isCounted with
    | true =>
      obtain ⟨symbol, hsymbol, _⟩ := ofRun_symbolFor hcounted (i.arg < 0)
      have hcount := (admits_iff_of_isCounted hcounted i.arg).mp hadmits
      rw [ofInstruction_of_isCounted hcounted hsymbol, symbolOf, hsymbol]
      obtain ⟨n, hn⟩ := Nat.exists_eq_succ_of_ne_zero hcount
      rw [hn]
      rfl
    | false =>
      rw [ofInstruction, if_neg (by simp [hcounted]), symbolOf, symbolFor, hcounted]
      cases hop : i.op <;> simp_all [Opcode.symbol?, Opcode.admits]

/-- A program comes back exactly if it is normal. -/
theorem read_write_eq_iff (program : List Instruction) :
    read (write program) = program ↔ Normal program := by
  induction program with
  | nil => exact iff_of_true rfl normal_nil
  | cons i program ih =>
    rw [normal_cons]
    rcases read_write_cons i program with ⟨hlength, hwhy⟩ | ⟨made, hread, hmade, hapart⟩
    · -- Nothing came back for the first instruction, so there are too few.
      constructor
      · intro hback
        have hle := length_read_write_le program
        rw [← hlength, hback, List.length_cons] at hle
        omega
      · rintro ⟨hadmits, _, hnormal, hfirst⟩
        rcases hwhy with hnot | ⟨hcounted, hjoined⟩
        · rw [hadmits] at hnot
          cases hnot
        · obtain ⟨symbol, hsymbol, _⟩ := ofRun_symbolFor hcounted (i.arg < 0)
          rw [head?_write hnormal, symbolOf, hsymbol] at hjoined
          obtain ⟨next, hnext, hsame⟩ := Option.bind_eq_some_iff.mp hjoined
          exact absurd ((sameWay_iff hcounted).mpr (hsymbol.trans hsame.symm)) (hfirst next hnext)
    · rw [hread, List.cons.injEq, hmade, ih, and_assoc]
      refine and_congr_right fun _ => and_congr_right fun _ => ⟨fun hnormal => ⟨hnormal, ?_⟩, And.left⟩
      intro next hnext hsame
      apply hapart hsame.1
      rw [head?_write hnormal, hnext, Option.bind_some, (sameWay_iff hsame.1).mp hsame]

/-! ## Texts come back -/

/-- A move over a length that fits a word is written as a run of that length. -/
theorem write_move (op : Opcode) (hcounted : op.isCounted) (backward : Bool)
    (hsymbol : symbolFor op backward = some symbol) (hlength : 0 < length)
    (hfits : (length : Int) ≤ Number.greatest) :
    write [⟨op, .ofInt (length * (if backward then -1 else 1)), []⟩] = List.replicate length symbol := by
  unfold Number.greatest at hfits
  have harg : (Int64.ofInt (length * (if backward then -1 else 1))).toInt =
      length * (if backward then -1 else 1) := by
    apply Int64.toInt_ofInt_of_le <;> cases backward <;> simp <;> omega
  generalize Int64.ofInt (length * (if backward then -1 else 1)) = arg at harg
  have hsign : arg < 0 ↔ backward = true := by
    rw [Int64.lt_iff_toInt_lt, harg]
    cases backward <;> simp
    omega
  have hleast : arg ≠ Int64.minValue := by
    rintro rfl
    cases backward <;> simp at harg
    omega
  have hcount : count arg = length := by
    have hsame := (count_mul_sign arg hleast).trans harg
    simp only [hsign] at hsame
    cases backward <;> simp at hsame <;> omega
  have hwritten : symbolOf ⟨op, arg, []⟩ = some symbol := by
    simpa [symbolOf, hsign] using hsymbol
  rw [write, List.flatMap_singleton, ofInstruction_of_isCounted hcounted hwritten, hcount]

/-- Equal instructions with one symbol each are written as a run of it. -/
theorem write_units {unit : Instruction} (hunit : ofInstruction unit = [symbol]) (length : Nat) :
    write (List.replicate length unit) = List.replicate length symbol := by
  induction length with
  | zero => rfl
  | succ length ih =>
    rw [List.replicate_succ, List.replicate_succ, write, List.flatMap_cons, hunit]
    exact congrArg (List.cons symbol) ih

/-- A run of a symbol is written as it was read, and any other run is not written. -/
theorem write_ofRun (symbol : UInt8) (hlength : 0 < length)
    (hfits : (length : Int) ≤ Number.greatest) :
    write (ofRun symbol length) = (List.replicate length symbol).filter alphabet.contains := by
  have halphabet : alphabet = [43, 45, 60, 62, 46, 44, 91, 93] := by decide
  rw [List.filter_replicate, halphabet]
  unfold ofRun
  split
  · simpa [Instruction.moveCell] using write_move .moveCell rfl false rfl hlength hfits
  · simpa [Instruction.moveCell] using write_move .moveCell rfl true rfl hlength hfits
  · simpa [Instruction.moveCursor] using write_move .moveCursor rfl false rfl hlength hfits
  · simpa [Instruction.moveCursor] using write_move .moveCursor rfl true rfl hlength hfits
  · exact write_units rfl length
  · exact write_units rfl length
  · exact write_units rfl length
  · exact write_units rfl length
  · simp_all [write]

/-- Runs are written one after the other as they were read. -/
theorem write_flatMap_ofRun {runs : List Text}
    (hequal : ∀ run ∈ runs, run = List.replicate run.length (run.headD 0))
    (hsome : ∀ run ∈ runs, run ≠ []) (hfits : ∀ run ∈ runs, (run.length : Int) ≤ Number.greatest) :
    write (runs.flatMap fun run => ofRun (run.headD 0) run.length) =
      runs.flatten.filter alphabet.contains := by
  induction runs with
  | nil => rfl
  | cons run runs ih =>
    obtain ⟨hequal, hequalRest⟩ := List.forall_mem_cons.mp hequal
    obtain ⟨hsome, hsomeRest⟩ := List.forall_mem_cons.mp hsome
    obtain ⟨hfits, hfitsRest⟩ := List.forall_mem_cons.mp hfits
    have hrun := write_ofRun (run.headD 0) (List.length_pos_iff.mpr hsome) hfits
    rw [← hequal] at hrun
    rw [List.flatMap_cons, List.flatten_cons, List.filter_append, ← ih hequalRest hsomeRest hfitsRest,
      ← hrun]
    exact List.flatMap_append

/-- Writing what was read from a text whose length fits a word gives its symbols back. -/
theorem write_read {text : Text} (hfits : (text.length : Int) ≤ Number.greatest) :
    write (read text) = text.filter alphabet.contains := by
  have hshort : ∀ run ∈ text.splitBy (· == ·), (run.length : Int) ≤ Number.greatest := by
    intro run hrun
    have hle := (List.sublist_flatten_of_mem hrun).length_le
    rw [List.flatten_splitBy] at hle
    omega
  have hwrite := write_flatMap_ofRun (eq_replicate_of_mem_splitBy text)
    (fun run hrun => List.ne_nil_of_mem_splitBy hrun) hshort
  rwa [List.flatten_splitBy] at hwrite

/-- Writing and reading undo each other on what each of them makes. A text whose length fits a word,
as the length of every stored text does, is left with just its symbols when it is read and written.
A program, written and read, comes back exactly if it is normal: it has none but the six operations
with symbols and no comments, its moves have a distance other than zero and the least word, its other
instructions the argument they are made with, and no two neighbours are moves of one sort and one
sign. -/
theorem symbols_spell_normal_programs :
    (∀ text : Text, (text.length : Int) ≤ Number.greatest →
      write (read text) = text.filter alphabet.contains) ∧
    ∀ program : List Instruction, read (write program) = program ↔ Normal program :=
  ⟨fun _ hfits => write_read hfits, read_write_eq_iff⟩

/-- Bytes that are no symbols keep two runs apart when they are read, though not when what was read
is written. -/
theorem symbols_spell_normal_programs_remark :
    ((Text.ofString "++ +x[-]").length : Int) ≤ Number.greatest ∧
      read "++ +x[-]" = [.moveCell 2, .moveCell 1, .loopEnter, .moveCell (-1), .loopExit] ∧
        write (read "++ +x[-]") = "+++[-]" := by
  refine ⟨by decide, by decide, ?_⟩
  rw [symbols_spell_normal_programs.1 "++ +x[-]" (by decide)]
  decide

end Symbols

end Tapestry

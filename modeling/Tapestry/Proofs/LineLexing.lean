import Tapestry.Proofs.WordPlaces

/-!
# What a line is read as

The words of a line are its longest stretches without blanks, each at the column where it begins,
and all of them are found, from left to right. A line is cut at its first blank: what stands before
it is the first word, if it is anything, and the words of the rest are found the same way.

From this follows what reading a line gives, for every line: nothing if the first word is missing or
begins a comment, else a complaint if the spaces in front make up no level, else a statement of the
words before the comment.
-/

namespace Tapestry.Source

variable {b blank : UInt8} {text front line : Text} {start : Nat}

/-! ## Stretches without blanks -/

/-- A stretch of a line that has bytes and no blanks and cannot be made longer: in front of it and
behind it there is a blank or nothing. -/
structure IsRun (text : Text) (column : Nat) (word : Text) : Prop where
  nonempty : word ≠ []
  stands : (text.drop column).take word.length = word
  solid : ∀ b ∈ word, b ≠ 32 ∧ b ≠ 9
  starts : 0 < column → text[column - 1]? = some 32 ∨ text[column - 1]? = some 9
  ends : text[column + word.length]? = none ∨ text[column + word.length]? = some 32 ∨
    text[column + word.length]? = some 9

/-- The blanks are the space and the tab. -/
theorem isBlank_iff : Byte.isBlank b ↔ b = 32 ∨ b = 9 := by
  simp [Byte.isBlank]

/-- All other bytes are not blank. -/
theorem isBlank_eq_false_iff : Byte.isBlank b = false ↔ b ≠ 32 ∧ b ≠ 9 := by
  simp [Byte.isBlank]

/-- A line has no blanks, or it can be cut at its first blank. -/
theorem exists_cut (line : Text) :
    (∀ b ∈ line, Byte.isBlank b = false) ∨
      ∃ front blank rest, line = front ++ blank :: rest ∧ (∀ b ∈ front, Byte.isBlank b = false) ∧
        Byte.isBlank blank := by
  induction line with
  | nil => exact .inl (by simp)
  | cons b line ih =>
    cases hb : Byte.isBlank b with
    | true => exact .inr ⟨[], b, line, rfl, by simp, hb⟩
    | false =>
      rcases ih with hsolid | ⟨front, blank, rest, rfl, hfront, hblank⟩
      · exact .inl (List.forall_mem_cons.mpr ⟨hb, hsolid⟩)
      · exact .inr ⟨b :: front, blank, rest, rfl, List.forall_mem_cons.mpr ⟨hb, hfront⟩, hblank⟩

/-- The bytes of a stretch are not blank in the line. -/
theorem IsRun.not_isBlank {word : Text} {column i : Nat} (h : IsRun text column word)
    (hfrom : column ≤ i) (hto : i < column + word.length) :
    ∀ b ∈ text[i]?, Byte.isBlank b = false := by
  intro b hb
  have hword : word[i - column]? = some b := by
    rw [← h.stands, List.getElem?_take_of_lt (by omega), List.getElem?_drop, Nat.add_sub_cancel' hfrom, hb]
  exact isBlank_eq_false_iff.mpr (h.solid b (List.mem_of_getElem? hword))

/-- In front of a stretch that begins no line, and behind one that ends none, there is a blank. -/
theorem IsRun.isBlank_around {word : Text} {column : Nat} (h : IsRun text column word) :
    (0 < column → ∃ b ∈ text[column - 1]?, Byte.isBlank b) ∧
      ∀ b ∈ text[column + word.length]?, Byte.isBlank b := by
  constructor
  · intro hcolumn
    rcases h.starts hcolumn with hspace | htab
    · exact ⟨32, hspace, rfl⟩
    · exact ⟨9, htab, rfl⟩
  · intro b hb
    rcases h.ends with hnone | hspace | htab
    · rw [hnone] at hb
      cases hb
    · rw [hspace] at hb
      exact Option.some.inj hb ▸ rfl
    · rw [htab] at hb
      exact Option.some.inj hb ▸ rfl

/-- Up to where a line has no blanks, the only stretch is the whole of it. -/
theorem IsRun.eq_front {back word : Text} {column : Nat} (h : IsRun (front ++ back) column word)
    (hfront : ∀ b ∈ front, Byte.isBlank b = false) (hinside : column + word.length ≤ front.length) :
    front ≠ [] ∧ column = 0 ∧ word = front := by
  have hsolid {i : Nat} (hi : i < front.length) :
      ∃ b, (front ++ back)[i]? = some b ∧ Byte.isBlank b = false := by
    refine ⟨front[i], ?_, hfront _ (List.getElem_mem hi)⟩
    rw [List.getElem?_append_left hi, List.getElem?_eq_getElem hi]
  obtain ⟨hstarts, hends⟩ := h.isBlank_around
  have hlength := List.length_pos_iff.mpr h.nonempty
  have hcolumn : column = 0 := by
    rcases Nat.eq_zero_or_pos column with hzero | hpos
    · exact hzero
    · obtain ⟨b, hb, hblank⟩ := hstarts hpos
      obtain ⟨b', hb', hsolid⟩ := hsolid (by omega : column - 1 < front.length)
      rw [hb] at hb'
      rw [Option.some.inj hb', hsolid] at hblank
      cases hblank
  subst hcolumn
  have hwhole : word.length = front.length := by
    rcases Nat.lt_or_ge word.length front.length with hlt | hge
    · obtain ⟨b, hb, hsolid⟩ := hsolid hlt
      rw [← Nat.zero_add word.length] at hb
      rw [hends b hb] at hsolid
      cases hsolid
    · omega
  refine ⟨List.length_pos_iff.mp (by omega), rfl, ?_⟩
  have hstands := h.stands
  rw [List.drop_zero, hwhole, List.take_left] at hstands
  exact hstands.symm

/-- A line without blanks has itself as its only stretch, if it is anything. -/
theorem isRun_of_solid (hsolid : ∀ b ∈ line, Byte.isBlank b = false) {column : Nat} {word : Text} :
    IsRun line column word ↔ line ≠ [] ∧ column = 0 ∧ word = line := by
  constructor
  · intro h
    have hlength := congrArg List.length h.stands
    rw [List.length_take, List.length_drop] at hlength
    have hpos := List.length_pos_iff.mpr h.nonempty
    rw [← List.append_nil line] at h
    exact h.eq_front hsolid (by omega)
  · rintro ⟨hsome, rfl, rfl⟩
    exact ⟨hsome, by simp, fun b hb => isBlank_eq_false_iff.mp (hsolid b hb), by simp, .inl (by simp)⟩

/-- The stretches of a line that is cut at its first blank: what stands before the blank, if it is
anything, and the stretches of the rest. -/
theorem isRun_cut {rest : Text} (hfront : ∀ b ∈ front, Byte.isBlank b = false)
    (hblank : Byte.isBlank blank) {column : Nat} {word : Text} :
    IsRun (front ++ blank :: rest) column word ↔
      (front ≠ [] ∧ column = 0 ∧ word = front) ∨
        ∃ later, column = front.length + 1 + later ∧ IsRun rest later word := by
  have hat : (front ++ blank :: rest)[front.length]? = some blank := by simp
  have hbehind (i : Nat) : (front ++ blank :: rest)[front.length + 1 + i]? = rest[i]? := by
    rw [List.getElem?_append_right (by omega), Nat.add_assoc, Nat.add_sub_cancel_left, Nat.add_comm 1,
      List.getElem?_cons_succ]
  have hdrop (i : Nat) : (front ++ blank :: rest).drop (front.length + 1 + i) = rest.drop i := by
    rw [Nat.add_assoc, List.drop_length_add_append, Nat.add_comm 1, List.drop_succ_cons]
  constructor
  · intro h
    by_cases hinside : column + word.length ≤ front.length
    · exact .inl (h.eq_front hfront hinside)
    · -- The stretch does not go over the blank, so it begins behind it.
      have hlater : front.length < column := by
        by_contra hle
        have hnot := h.not_isBlank (by omega) (by omega : front.length < column + word.length) blank hat
        rw [hblank] at hnot
        cases hnot
      obtain ⟨later, rfl⟩ : ∃ later, column = front.length + 1 + later := ⟨column - (front.length + 1), by omega⟩
      refine .inr ⟨later, rfl, h.nonempty, ?_, h.solid, fun hpos => ?_, ?_⟩
      · rw [← hdrop, h.stands]
      · have hstarts := h.starts (by omega)
        rwa [Nat.add_sub_assoc hpos, hbehind] at hstarts
      · have hends := h.ends
        rwa [Nat.add_assoc, hbehind] at hends
  · rintro (⟨hsome, rfl, rfl⟩ | ⟨later, rfl, h⟩)
    · refine ⟨hsome, by simp, fun b hb => isBlank_eq_false_iff.mp (hfront b hb), by simp, .inr ?_⟩
      rw [Nat.zero_add, hat]
      exact (isBlank_iff.mp hblank).imp (congrArg some) (congrArg some)
    · refine ⟨h.nonempty, by rw [hdrop, h.stands], h.solid, fun _ => ?_, ?_⟩
      · rcases Nat.eq_zero_or_pos later with rfl | hpos
        · rw [Nat.add_zero, Nat.add_sub_cancel, hat]
          exact (isBlank_iff.mp hblank).imp (congrArg some) (congrArg some)
        · rw [Nat.add_sub_assoc hpos, hbehind]
          exact h.starts hpos
      · rw [Nat.add_assoc, hbehind]
        exact h.ends

/-! ## The words found are the stretches -/

/-- The words of a line whose first byte has a given column. -/
def wordsFrom (start : Nat) (line : Text) : List (Nat × Text) :=
  ((line.zipIdx start).splitOnP fun entry => Byte.isBlank entry.1).filterMap fun run =>
    run.head?.map fun first => (first.2, run.map Prod.fst)

/-- The word that a front without blanks is, if it is anything. -/
def frontWord (start : Nat) (front : Text) : List (Nat × Text) :=
  if front = [] then [] else [(start, front)]

/-- The word at the front of a stretch is all of it, if it has bytes. -/
theorem mem_frontWord {column : Nat} {word : Text} :
    (column, word) ∈ frontWord start front ↔ front ≠ [] ∧ column = start ∧ word = front := by
  unfold frontWord
  split <;> simp_all

/-- A stretch of numbered bytes is one word, at the number of its first byte. -/
theorem filterMap_zipIdx (start : Nat) (front : Text) :
    [front.zipIdx start].filterMap (fun run => run.head?.map fun first => (first.2, run.map Prod.fst)) =
      frontWord start front := by
  cases front with
  | nil => rfl
  | cons b front => simp [frontWord]

/-- Numbering bytes makes none of them blank. -/
theorem isBlank_zipIdx (hfront : ∀ b ∈ front, Byte.isBlank b = false) (start : Nat) :
    ∀ entry ∈ front.zipIdx start, Byte.isBlank entry.1 = false := fun entry hentry =>
  hfront entry.1 (List.fst_mem_of_mem_zipIdx hentry)

/-- A line without blanks is one word. -/
theorem wordsFrom_solid (hsolid : ∀ b ∈ line, Byte.isBlank b = false) (start : Nat) :
    wordsFrom start line = frontWord start line := by
  rw [wordsFrom, List.splitOnP_eq_singleton (isBlank_zipIdx hsolid start), filterMap_zipIdx]

/-- A line that is cut at its first blank has the word in front of it, and those of the rest. -/
theorem wordsFrom_cut {rest : Text} (hfront : ∀ b ∈ front, Byte.isBlank b = false)
    (hblank : Byte.isBlank blank) (start : Nat) :
    wordsFrom start (front ++ blank :: rest) =
      frontWord start front ++ wordsFrom (start + front.length + 1) rest := by
  rw [wordsFrom, List.zipIdx_append, List.zipIdx_cons,
    List.splitOnP_append_cons_of_forall_mem (isBlank_zipIdx hfront start) _ hblank, ← List.singleton_append,
    List.filterMap_append, filterMap_zipIdx]
  rfl

/-- The words found are the stretches of the line. -/
theorem mem_wordsFrom_iff {column : Nat} {word : Text} :
    (column, word) ∈ wordsFrom start line ↔ ∃ offset, column = start + offset ∧ IsRun line offset word := by
  -- Each blank that the line is cut at leaves a shorter line.
  induction hlength : line.length using Nat.strong_induction_on generalizing start line with
  | _ length ih =>
    rcases exists_cut line with hsolid | ⟨front, blank, rest, rfl, hfront, hblank⟩
    · rw [wordsFrom_solid hsolid, mem_frontWord]
      simp only [isRun_of_solid hsolid]
      constructor
      · rintro ⟨hsome, rfl, rfl⟩
        exact ⟨0, rfl, hsome, rfl, rfl⟩
      · rintro ⟨offset, rfl, hsome, rfl, rfl⟩
        exact ⟨hsome, rfl, rfl⟩
    · have hshorter : rest.length < length := by
        rw [← hlength, List.length_append, List.length_cons]
        omega
      rw [wordsFrom_cut hfront hblank, List.mem_append, mem_frontWord, ih _ hshorter rfl]
      simp only [isRun_cut hfront hblank]
      constructor
      · rintro (⟨hsome, rfl, rfl⟩ | ⟨later, rfl, hrun⟩)
        · exact ⟨0, rfl, .inl ⟨hsome, rfl, rfl⟩⟩
        · exact ⟨front.length + 1 + later, by omega, .inr ⟨later, rfl, hrun⟩⟩
      · rintro ⟨offset, rfl, ⟨hsome, rfl, rfl⟩ | ⟨later, rfl, hrun⟩⟩
        · exact .inl ⟨hsome, rfl, rfl⟩
        · exact .inr ⟨later, by omega, hrun⟩

/-- The words are found from left to right. -/
theorem wordsFrom_pairwise (start : Nat) (line : Text) :
    (wordsFrom start line).Pairwise fun first next => first.1 < next.1 := by
  induction hlength : line.length using Nat.strong_induction_on generalizing start line with
  | _ length ih =>
    have hone (front : Text) : (frontWord start front).Pairwise fun first next => first.1 < next.1 := by
      unfold frontWord
      split <;> simp
    rcases exists_cut line with hsolid | ⟨front, blank, rest, rfl, hfront, hblank⟩
    · rw [wordsFrom_solid hsolid]
      exact hone line
    · have hshorter : rest.length < length := by
        rw [← hlength, List.length_append, List.length_cons]
        omega
      rw [wordsFrom_cut hfront hblank, List.pairwise_append]
      refine ⟨hone front, ih _ hshorter _ _ rfl, fun first hfirst next hnext => ?_⟩
      obtain ⟨_, hcolumn, _⟩ := mem_frontWord.mp hfirst
      obtain ⟨offset, hoffset, _⟩ := mem_wordsFrom_iff.mp hnext
      omega

/-- The words of a line are its longest stretches without blanks. -/
theorem mem_words_iff {word : Text} {column : Nat} :
    (column, word) ∈ words line ↔ IsRun line column word := by
  have hwords : words line = wordsFrom 0 line := rfl
  rw [hwords, mem_wordsFrom_iff]
  simp

/-- The words of a line are found from left to right. -/
theorem words_pairwise (line : Text) : (words line).Pairwise fun first next => first.1 < next.1 :=
  wordsFrom_pairwise 0 line

/-! ## Words before a comment -/

/-- In a list that goes from left to right, the members before the first that fails a test are those
to the left of all that fail it. -/
theorem mem_takeWhile_iff {places : List (Nat × Text)}
    (hsorted : places.Pairwise fun first next => first.1 < next.1) (test : Nat × Text → Bool)
    {place : Nat × Text} :
    place ∈ places.takeWhile test ↔
      place ∈ places ∧ ∀ other ∈ places, test other = false → place.1 < other.1 := by
  induction places with
  | nil => simp
  | cons first places ih =>
    obtain ⟨hfirst, hsorted⟩ := List.pairwise_cons.mp hsorted
    cases htest : test first with
    | true =>
      rw [List.takeWhile_cons_of_pos htest, List.mem_cons, List.mem_cons, ih hsorted]
      constructor
      · rintro (rfl | ⟨hplace, hothers⟩)
        · refine ⟨.inl rfl, List.forall_mem_cons.mpr ⟨fun hfalse => ?_, fun other hother _ => hfirst other hother⟩⟩
          rw [htest] at hfalse
          cases hfalse
        · refine ⟨.inr hplace, List.forall_mem_cons.mpr ⟨fun hfalse => ?_, hothers⟩⟩
          rw [htest] at hfalse
          cases hfalse
      · rintro ⟨rfl | hplace, hothers⟩
        · exact .inl rfl
        · exact .inr ⟨hplace, (List.forall_mem_cons.mp hothers).2⟩
    | false =>
      rw [List.takeWhile_cons_of_neg (by simp [htest])]
      refine iff_of_false List.not_mem_nil ?_
      rintro ⟨hplace, hothers⟩
      have hleft := (List.forall_mem_cons.mp hothers).1 htest
      rcases List.mem_cons.mp hplace with rfl | hplace
      · omega
      · have hright := hfirst place hplace
        omega

/-- A line that says nothing: it has no words, or its first word begins a comment. -/
def Silent (line : Text) : Prop :=
  (∀ column word, ¬IsRun line column word) ∨
    ∃ column word, IsRun line column word ∧ (∀ c w, IsRun line c w → column ≤ c) ∧ word.head? = some 35

/-- Leading spaces that make up no level, or a tab directly behind them. -/
def Misindented (text : Text) (indent : Nat) : Prop := indent % 4 ≠ 0 ∨ text[indent]? = some 9

/-- The words of a line before its comment, with their columns. -/
structure Words (line : Text) (places : List (Nat × Text)) : Prop where
  ordered : places.Pairwise fun first next => first.1 < next.1
  mem_iff : ∀ column word, (column, word) ∈ places ↔
    IsRun line column word ∧ ∀ c w, IsRun line c w → w.head? = some 35 → column < c

/-- A text without the spaces, tabs and carriage returns at its end. -/
structure Trims (text line : Text) : Prop where
  exists_rest : ∃ rest, text = line ++ rest ∧ ∀ b ∈ rest, b = 32 ∨ b = 9 ∨ b = 13
  last : ∀ b ∈ line.getLast?, ¬(b = 32 ∨ b = 9 ∨ b = 13)

/-- The number of spaces in front of a line. -/
structure Indents (text : Text) (indent : Nat) : Prop where
  spaces : ∀ i < indent, text[i]? = some 32
  stop : text[indent]? ≠ some 32

/-- The statement that a line of words is. -/
structure Spells (number : Int) (line : Text) (indent : Nat) (statement : Statement) : Prop where
  line_eq : statement.line = number
  depth_eq : statement.depth = (indent / 4 : Nat)
  source_eq : statement.source = line
  exists_words : ∃ places, Words line places ∧
    statement.tokens = places.map fun place => ⟨number, place.1, place.2⟩

/-- A word that begins with a number sign begins a comment. -/
theorem isComment_iff {word : Text} : isComment word ↔ word.head? = some 35 := by
  simp [isComment]

/-- The words taken as tokens are those before the comment. -/
theorem exists_words_tokens (number : Int) (line : Text) :
    ∃ places, Words line places ∧
      tokens number line = places.map fun place => ⟨number, place.1, place.2⟩ := by
  refine ⟨(words line).takeWhile fun place => !isComment place.2, ⟨?_, fun column word => ?_⟩, rfl⟩
  · exact (words_pairwise line).sublist (List.takeWhile_sublist _)
  · rw [mem_takeWhile_iff (words_pairwise line), mem_words_iff]
    refine and_congr_right fun _ => ⟨fun hbefore c w hrun hcomment => ?_, fun hbefore other hother hcomment => ?_⟩
    · exact hbefore (c, w) (mem_words_iff.mpr hrun) (by simpa [isComment_iff] using hcomment)
    · exact hbefore _ _ (mem_words_iff.mp hother) (by simpa [isComment_iff] using hcomment)

/-- A line has no tokens exactly if it says nothing. -/
theorem tokens_eq_nil_iff (number : Int) (line : Text) : tokens number line = [] ↔ Silent line := by
  have htokens : tokens number line = [] ↔ ((words line).takeWhile fun place => !isComment place.2) = [] :=
    List.map_eq_nil_iff
  have hsorted := words_pairwise line
  have hmem (column : Nat) (word : Text) := @mem_words_iff line word column
  rw [htokens]
  unfold Silent
  simp only [← hmem]
  generalize words line = places at hsorted ⊢
  cases places with
  | nil => simp
  | cons first places =>
    obtain ⟨hfirst, _⟩ := List.pairwise_cons.mp hsorted
    rw [List.takeWhile_cons]
    constructor
    · intro hnil
      refine .inr ⟨first.1, first.2, List.mem_cons_self, fun c w hplace => ?_, ?_⟩
      · rcases List.mem_cons.mp hplace with rfl | hplace
        · exact Nat.le_refl _
        · exact Nat.le_of_lt (hfirst _ hplace)
      · by_contra hplain
        rw [← isComment_iff] at hplain
        simp [hplain] at hnil
    · rintro (hnone | ⟨column, word, hplace, hleast, hcomment⟩)
      · exact absurd List.mem_cons_self (hnone first.1 first.2)
      · rcases List.mem_cons.mp hplace with rfl | hplace
        · simp [isComment_iff.mpr hcomment]
        · have hlt := hfirst _ hplace
          have hle := hleast first.1 first.2 List.mem_cons_self
          omega

/-! ## Trimming and indentation -/

/-- Spaces, tabs and returns at the end of a line are dropped. -/
theorem isTrailing_iff : isTrailing b ↔ b = 32 ∨ b = 9 ∨ b = 13 := by
  simp [isTrailing, or_assoc]

/-- A line is trimmed at its end. -/
theorem trims_dropRight (text : Text) : Trims text (Text.dropRight isTrailing text) := by
  constructor
  · refine ⟨(text.reverse.takeWhile isTrailing).reverse, ?_, fun b hb => ?_⟩
    · rw [Text.dropRight, ← List.reverse_append, List.takeWhile_append_dropWhile, List.reverse_reverse]
    · exact isTrailing_iff.mp (List.all_eq_true.mp List.all_takeWhile b (List.mem_reverse.mp hb))
  · intro b hb htrailing
    have hsome : Text.dropRight isTrailing text ≠ [] := by
      rintro hnil
      rw [hnil] at hb
      cases hb
    have hlast : (Text.dropRight isTrailing text).getLast hsome = b :=
      Option.some.inj ((List.getLast?_eq_some_getLast hsome).symm.trans hb)
    have hnot : ¬isTrailing ((Text.dropRight isTrailing text).getLast hsome) :=
      List.rdropWhile_last_not isTrailing text hsome
    rw [hlast, isTrailing_iff] at hnot
    exact hnot htrailing

/-- The spaces in front of a line are counted. -/
theorem indents_leadingSpaces (line : Text) : Indents line (leadingSpaces line) := by
  induction line with
  | nil => exact ⟨fun i hi => absurd hi (Nat.not_lt_zero i), by simp⟩
  | cons b line ih =>
    by_cases hb : b = 32
    · have hmore : leadingSpaces (b :: line) = leadingSpaces line + 1 := by
        rw [leadingSpaces, List.takeWhile_cons_of_pos (by simpa using hb)]
        rfl
      rw [hmore]
      refine ⟨fun i hi => ?_, ih.stop⟩
      cases i with
      | zero => rw [hb]; rfl
      | succ i => exact ih.spaces i (by omega)
    · have hnone : leadingSpaces (b :: line) = 0 := by
        rw [leadingSpaces, List.takeWhile_cons_of_neg (by simpa using hb)]
        rfl
      rw [hnone]
      exact ⟨fun i hi => absurd hi (Nat.not_lt_zero i), by simpa using hb⟩

/-- A line is well indented unless the spaces in front make up no level. -/
theorem wellIndented_iff_not_misindented (line : Text) :
    wellIndented line ↔ ¬Misindented line (leadingSpaces line) := by
  simp [wellIndented, Misindented, indentWidth, List.head?_drop]

/-! ## Lines and sources -/

/-- Trimming a line that has been trimmed changes nothing. -/
theorem readLine_trimmed (number : Int) (text : Text) :
    readLine number (Text.dropRight isTrailing text) = readLine number text := by
  have hagain : Text.dropRight isTrailing (Text.dropRight isTrailing text) = Text.dropRight isTrailing text :=
    List.rdropWhile_idempotent isTrailing text
  rw [readLine, readLine, hagain]

/-- Reading a line gives nothing, a complaint about its indentation, or the statement it is. -/
theorem readLine_decides (number : Int) (text : Text) :
    ∃ line indent, Trims text line ∧ Indents line indent ∧
      ((Silent line ∧ readLine number text = .ok none) ∨
        (¬Silent line ∧ ∃ statement, Spells number line indent statement ∧
          readLine number line = readLine number text ∧
            ((Misindented line indent ∧ readLine number text = .error (badIndentation statement)) ∨
              (¬Misindented line indent ∧ readLine number text = .ok (some statement))))) := by
  refine ⟨_, _, trims_dropRight text, indents_leadingSpaces _, ?_⟩
  have hsilent := tokens_eq_nil_iff number (Text.dropRight isTrailing text)
  have hwords := exists_words_tokens number (Text.dropRight isTrailing text)
  rw [readLine_trimmed, readLine]
  dsimp only
  cases htokens : tokens number (Text.dropRight isTrailing text) with
  | nil => exact .inl ⟨hsilent.mp htokens, rfl⟩
  | cons head args =>
    rw [htokens] at hsilent hwords
    let statement : Statement :=
      { line := number
        depth := (leadingSpaces (Text.dropRight isTrailing text) / indentWidth : Nat)
        head, args, source := Text.dropRight isTrailing text }
    refine .inr ⟨fun h => absurd (hsilent.mpr h) (List.cons_ne_nil _ _), statement,
      ⟨rfl, rfl, rfl, hwords⟩, rfl, ?_⟩
    dsimp only
    split
    case isTrue hwell => exact .inr ⟨(wellIndented_iff_not_misindented _).mp hwell, rfl⟩
    case isFalse hbad => exact .inl ⟨not_not.mp (mt (wellIndented_iff_not_misindented _).mpr hbad), rfl⟩

/-- A return at the end of a line makes no difference. -/
theorem readLine_dropReturn (number : Int) (line : Text) :
    readLine number (Lines.dropReturn line) = readLine number line := by
  rw [readLine, readLine, dropRight_dropReturn]

/-- Lines are read one after the other. -/
theorem results_append (number : Nat) (front back : List Text) :
    results number (front ++ back) = results number front ++ results (number + front.length) back := by
  rw [results, List.zipIdx_append, List.map_append]
  rfl

/-- The carriage return at the end of a line tells nothing. -/
theorem results_dropReturn (number : Nat) (lines : List Text) :
    results number (lines.map Lines.dropReturn) = results number lines := by
  induction lines generalizing number with
  | nil => rfl
  | cons line lines ih =>
    have hcons (first : Text) (rest : List Text) :
        results number (first :: rest) = readLine (number : Nat) first :: results (number + 1) rest := rfl
    rw [List.map_cons, hcons, hcons, readLine_dropReturn, ih]

/-- Each line is read under its own number. -/
theorem getElem?_results (number i : Nat) (lines : List Text) :
    (results number lines)[i]? = lines[i]?.map fun line => readLine ((number + i : Nat) : Int) line := by
  rw [results, List.getElem?_map, List.getElem?_zipIdx, Option.map_map]
  rfl

/-- The first lines of a list give the first results. -/
theorem results_take (number count : Nat) (lines : List Text) :
    results number (lines.take count) = (results number lines).take count := by
  apply List.ext_getElem?
  intro i
  rw [getElem?_results, List.getElem?_take, List.getElem?_take, getElem?_results]
  split <;> rfl

/-- Behind the members that pass a test stands one that does not. -/
theorem not_of_getElem?_takeWhile {α : Type} {test : α → Bool} {l : List α} {a : α}
    (h : l[(l.takeWhile test).length]? = some a) : test a = false := by
  induction l with
  | nil => cases h
  | cons first l ih =>
    cases hfirst : test first with
    | true =>
      rw [List.takeWhile_cons_of_pos hfirst] at h
      exact ih h
    | false =>
      rw [List.takeWhile_cons_of_neg (by simp [hfirst])] at h
      rwa [← Option.some.inj h]

/-- What stops the reading of lines is the first line that cannot be read. -/
theorem findSome?_fault (found : List (Except Fault (Option Statement))) :
    found.findSome? fault? = (found[(found.takeWhile Except.isOk).length]?).bind fault? := by
  induction found with
  | nil => rfl
  | cons result found ih =>
    cases result with
    | ok statement =>
      rw [List.findSome?_cons_of_isNone (by rfl), List.takeWhile_cons_of_pos (by rfl), ih]
      rfl
    | error fault => rfl

/-- What was read from lines, up to one of them: each line gave its own statement, under its own
number, and the one that reading stopped at cannot be read or is too long. -/
structure Follows (lines : List Text) (count : Nat) (lexed : Lexed) : Prop where
  readable : ∀ result ∈ results 1 (lines.take count), result.isOk
  statements_eq : lexed.statements = (results 1 (lines.take count)).filterMap statement?
  finished : lexed.stop = none → ∀ line ∈ lines.drop count, line = []
  stopped : ∀ failure, lexed.stop = some failure → ∃ line, lines[count]? = some line ∧
    ((∃ fault, failure = .fault fault ∧ readLine ((count + 1 : Nat) : Int) line = .error fault) ∨
      (failure = .trouble .lineTooLong ∧ Lines.limit ≤ line.length))

/-- Between the line feeds of a text there is nothing behind its lines. -/
theorem eq_nil_of_mem_drop_pieces (h : line ∈ (text.splitOn 10).drop (Lines.pieces text).length) :
    line = [] := by
  unfold Lines.pieces at h
  dsimp only at h
  split at h
  case isTrue hlast =>
    obtain ⟨front, hfront⟩ := List.getLast?_eq_some_iff.mp hlast
    rw [hfront, List.dropLast_concat, List.drop_left] at h
    exact List.mem_singleton.mp h
  case isFalse =>
    rw [List.drop_length] at h
    cases h

/-- The lines of a source before the first that is too long. -/
def shortLines (source : Text) : List Text := (Lines.pieces source).takeWhile (·.length < Lines.limit)

/-- How many lines of a source are read without complaint. -/
def readCount (source : Text) : Nat := ((results 1 (shortLines source)).takeWhile Except.isOk).length

/-- The lines up to the first that is too long are the first of all lines. -/
theorem shortLines_isPrefix (source : Text) : shortLines source <+: source.splitOn 10 :=
  (List.takeWhile_prefix _).trans (pieces_isPrefix source)

/-- The lines that are read are those up to the first that is too long. -/
theorem results_lines (source : Text) :
    results 1 (Lines.read source).lines = results 1 (shortLines source) :=
  results_dropReturn 1 (shortLines source)

/-- The lines read without complaint are the first lines of the source. -/
theorem results_take_readCount (source : Text) :
    results 1 ((source.splitOn 10).take (readCount source)) =
      (results 1 (shortLines source)).takeWhile Except.isOk := by
  obtain ⟨rest, hrest⟩ := shortLines_isPrefix source
  rw [results_take, ← hrest, results_append]
  exact (List.prefix_iff_eq_take.mp ((List.takeWhile_prefix _).trans (List.prefix_append _ _))).symm

/-- Reading a source goes through all its lines, or a complaint about a line stops it, or a line that
is too long. -/
theorem stop_cases (source : Text) :
    ((lex source).stop = none ∧ readCount source = (Lines.pieces source).length) ∨
      (∃ fault line, (lex source).stop = some (.fault fault) ∧
        (shortLines source)[readCount source]? = some line ∧
          readLine ((readCount source + 1 : Nat) : Int) line = .error fault) ∨
      ∃ line, (lex source).stop = some (.trouble .lineTooLong) ∧
        (Lines.pieces source)[readCount source]? = some line ∧ Lines.limit ≤ line.length := by
  have hle : readCount source ≤ (shortLines source).length := by
    have hsublist := (List.takeWhile_sublist Except.isOk (l := results 1 (shortLines source))).length_le
    rwa [results, List.length_map, List.length_zipIdx] at hsublist
  have hshort : (shortLines source).length ≤ (Lines.pieces source).length :=
    (List.takeWhile_sublist _).length_le
  have hoverlong : (Lines.read source).overlong =
    decide ((shortLines source).length < (Lines.pieces source).length) := rfl
  have hstop := stop_lex source
  rw [results_lines, findSome?_fault, ← readCount, getElem?_results, hoverlong] at hstop
  cases hline : (shortLines source)[readCount source]? with
  | none =>
    have hall : readCount source = (shortLines source).length := by
      have hge := List.getElem?_eq_none_iff.mp hline
      omega
    rw [hline] at hstop
    cases hpiece : (Lines.pieces source)[readCount source]? with
    | none =>
      have hge := List.getElem?_eq_none_iff.mp hpiece
      refine .inl ⟨hstop.trans ?_, by omega⟩
      simp only [Option.map_none, Option.bind_none, Option.elim_none]
      exact if_neg (by simpa using by omega)
    | some line =>
      obtain ⟨hlt, _⟩ := List.getElem?_eq_some_iff.mp hpiece
      refine .inr (.inr ⟨line, hstop.trans ?_, rfl, ?_⟩)
      · simp only [Option.map_none, Option.bind_none, Option.elim_none]
        exact if_pos (by simpa using by omega)
      · rw [hall] at hpiece
        simpa using not_of_getElem?_takeWhile hpiece
  | some line =>
    have hfails : (readLine ((1 + readCount source : Nat) : Int) line).isOk = false := by
      apply not_of_getElem?_takeWhile (l := results 1 (shortLines source))
      rw [← readCount, getElem?_results, hline, Option.map_some]
    rw [hline] at hstop
    refine .inr (.inl ?_)
    rw [Nat.add_comm (readCount source)]
    cases hread : readLine ((1 + readCount source : Nat) : Int) line with
    | ok statement =>
      rw [hread] at hfails
      cases hfails
    | error fault =>
      rw [Option.map_some, hread] at hstop
      exact ⟨fault, line, hstop, rfl, hread⟩

/-- A source is read line by line, each line under its number in the source. -/
theorem exists_follows_lex (source : Text) : ∃ count, Follows (source.splitOn 10) count (lex source) := by
  have hstatements : (lex source).statements =
      ((results 1 (shortLines source)).takeWhile Except.isOk).filterMap statement? := by
    rw [← results_lines]
    rfl
  have hinside {lines : List Text} (hbegins : lines <+: source.splitOn 10) {i : Nat} {line : Text}
      (h : lines[i]? = some line) : (source.splitOn 10)[i]? = some line := by
    obtain ⟨rest, hrest⟩ := hbegins
    rw [← hrest, List.getElem?_append_left (List.getElem?_eq_some_iff.mp h).1, h]
  refine ⟨readCount source, ?_, ?_, fun hnone => ?_, fun failure hfailure => ?_⟩
  · rw [results_take_readCount]
    exact List.all_eq_true.mp List.all_takeWhile
  · rw [results_take_readCount, hstatements]
  · rcases stop_cases source with ⟨_, hcount⟩ | ⟨_, _, hstop, _⟩ | ⟨_, hstop, _⟩
    · intro line hline
      rw [hcount] at hline
      exact eq_nil_of_mem_drop_pieces hline
    · rw [hnone] at hstop
      cases hstop
    · rw [hnone] at hstop
      cases hstop
  · rcases stop_cases source with ⟨hstop, _⟩ | ⟨fault, line, hstop, hline, hread⟩ | ⟨line, hstop, hline, hlong⟩
    · rw [hfailure] at hstop
      cases hstop
    · obtain rfl := Option.some.inj (hfailure.symm.trans hstop)
      exact ⟨line, hinside (shortLines_isPrefix source) hline, .inl ⟨fault, rfl, hread⟩⟩
    · obtain rfl := Option.some.inj (hfailure.symm.trans hstop)
      exact ⟨line, hinside (pieces_isPrefix source) hline, .inr ⟨rfl, hlong⟩⟩

/-- Lines are read exactly. Let a line be trimmed at its end and begin with some number of spaces. If
it has no words, or its first word begins a comment, it is no statement. Otherwise, if the spaces make
up no level or a tab follows them, its level is at fault and its first word is blamed. Otherwise it is
the statement at that level whose words are its longest stretches without blanks before the comment,
in order and each at its column, and the source kept with the statement is read as the same statement.
A whole source is read line by line, each line under its number in the source. -/
theorem lines_lexed_exactly :
    (∀ (number : Int) (text : Text), ∃ line indent, Trims text line ∧ Indents line indent ∧
      ((Silent line ∧ readLine number text = .ok none) ∨
        (¬Silent line ∧ Misindented line indent ∧ ∃ fault statement, readLine number text = .error fault ∧
          fault.kind = .level ∧ fault.token = some statement.head ∧ Spells number line indent statement) ∨
        (¬Silent line ∧ ¬Misindented line indent ∧ ∃ statement,
          readLine number text = .ok (some statement) ∧ Spells number line indent statement ∧
            readLine number statement.source = .ok (some statement)))) ∧
    ∀ source : Text, ∃ count, Follows (source.splitOn 10) count (lex source) := by
  refine ⟨fun number text => ?_, exists_follows_lex⟩
  obtain ⟨line, indent, htrims, hindents, hdecides⟩ := readLine_decides number text
  refine ⟨line, indent, htrims, hindents, ?_⟩
  rcases hdecides with hsilent | ⟨hsome, statement, hspells, htrimmed, ⟨hbad, hread⟩ | ⟨hwell, hread⟩⟩
  · exact .inl hsilent
  · exact .inr (.inl ⟨hsome, hbad, _, statement, hread, rfl, rfl, hspells⟩)
  · refine .inr (.inr ⟨hsome, hwell, statement, hread, hspells, ?_⟩)
    rw [hspells.source_eq, htrimmed, hread]

/-- A comment begins with a word of its own, not within one. -/
example : (readLine 3 "    a\tb#c  #d \r").toOption =
    some (some ⟨3, 1, ⟨3, 4, "a"⟩, [⟨3, 6, "b#c"⟩], "    a\tb#c  #d"⟩) := by decide

end Tapestry.Source

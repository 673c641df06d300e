import Tapestry.Session.Cursor
import Tapestry.Proofs.LineLexing

/-!
# Words at a cursor

The lexer and the editor find words in their own ways. To the lexer a word is a longest stretch
without blanks, in a line whose white space at the end has been dropped. To the editor it is a
longest stretch of letters, digits and underscores, in the line as it stands between line feeds.

They agree on the words of statements that are made of letters, digits and underscores. Beside such a
word there is a blank, white space that the lexer has dropped, or nothing, and none of these belongs
to a word of the editor.
-/

namespace Tapestry

namespace Source

variable {text line word : Text} {column : Nat} {statement : Statement} {token : Token}

/-- Blanks are among the bytes that may trail a line. -/
theorem isTrailing_of_isBlank {b : UInt8} (h : Byte.isBlank b) : isTrailing b := by
  rcases isBlank_iff.mp h with rfl | rfl <;> rfl

/-- A word of a trimmed line stands in the whole line between white space. -/
theorem IsRun.exists_around (h : IsRun (Text.dropRight isTrailing line) column word) :
    ∃ front back, line = front ++ (word ++ back) ∧ front.length = column ∧
      (∀ b ∈ front.getLast?, isTrailing b) ∧ ∀ b ∈ back.head?, isTrailing b := by
  obtain ⟨⟨rest, hrest, htrailing⟩, _⟩ := trims_dropRight line
  generalize Text.dropRight isTrailing line = trimmed at h hrest
  obtain ⟨hbefore, hbehind⟩ := h.isBlank_around
  have hsplit : trimmed = trimmed.take column ++ (word ++ trimmed.drop (column + word.length)) := by
    nth_rewrite 1 [← List.take_append_drop column trimmed,
      ← List.take_append_drop word.length (trimmed.drop column)]
    rw [h.stands, List.drop_drop]
  have hinside : column ≤ trimmed.length := by
    by_contra hbeyond
    have hnone := h.stands
    rw [List.drop_eq_nil_of_le (by omega), List.take_nil] at hnone
    exact h.nonempty hnone.symm
  refine ⟨trimmed.take column, trimmed.drop (column + word.length) ++ rest, ?_,
    List.length_take_of_le hinside, fun b hb => ?_, fun b hb => ?_⟩
  · rw [hrest, ← List.append_assoc word, ← List.append_assoc, ← hsplit]
  · rcases Nat.eq_zero_or_pos column with rfl | hcolumn
    · cases hb
    · rw [List.getLast?_eq_getElem?, List.length_take_of_le hinside,
        List.getElem?_take_of_lt (by omega)] at hb
      obtain ⟨blank, hfound, hblank⟩ := hbefore hcolumn
      obtain rfl := Option.some.inj (hb.symm.trans hfound)
      exact isTrailing_of_isBlank hblank
  · rw [List.head?_append, List.head?_drop] at hb
    rcases Option.or_eq_some_iff.mp hb with hinner | ⟨_, hdropped⟩
    · exact isTrailing_of_isBlank (hbehind b hinner)
    · exact isTrailing_iff.mpr (htrailing b (List.mem_of_mem_head? hdropped))

/-- The statements that the lexer comes to stand in the text, also if it stops. -/
theorem standsIn_of_lex (h : statement ∈ (lex text).statements) : statement.StandsIn text := by
  have hstatements : (lex text).statements =
      ((results 1 (Lines.read text).lines).takeWhile Except.isOk).filterMap statement? := rfl
  rw [hstatements] at h
  obtain ⟨result, hresult, hfound⟩ := List.mem_filterMap.mp h
  obtain ⟨i, hi⟩ := List.mem_iff_getElem?.mp (List.takeWhile_subset _ hresult)
  rw [getElem?_results] at hi
  obtain ⟨line, hline, rfl⟩ := Option.map_eq_some_iff.mp hi
  refine standsIn_of_readLine hline (.inl ?_)
  cases hread : readLine ((1 + i : Nat) : Int) line with
  | error fault =>
    rw [hread] at hfound
    cases hfound
  | ok found =>
    rw [hread] at hfound
    exact congrArg Except.ok hfound

end Source

/-- A word of a statement stands in its line of the text from its column on, between white space. -/
theorem Statement.StandsIn.exists_around {text : Text} {statement : Statement} {token : Token}
    (h : statement.StandsIn text) (htoken : token ∈ statement.tokens) :
    ∃ (i : Nat) (front back : Text), token.line = ((i + 1 : Nat) : Int) ∧
      (text.splitOn 10)[i]? = some (front ++ (token.text ++ back)) ∧ token.column = front.length ∧
        (∀ b ∈ front.getLast?, Source.isTrailing b) ∧ ∀ b ∈ back.head?, Source.isTrailing b := by
  obtain ⟨i, line, hfound, hnumber, hsource⟩ := h.exists_line
  have hline := (h.line_of_mem htoken).1
  rw [h.tokens_eq, hsource] at htoken
  obtain ⟨⟨column, word⟩, hword, rfl⟩ := List.mem_map.mp htoken
  obtain ⟨front, back, rfl, hcolumn, hfront, hback⟩ :=
    (Source.mem_words_iff.mp (List.takeWhile_subset _ hword)).exists_around
  exact ⟨i, front, back, hline.trans hnumber, hfound, congrArg Nat.cast hcolumn.symm, hfront, hback⟩

namespace Cursor

variable {text line front word back : Text} {cursor : Cursor} {b : UInt8}

/-- White space belongs to no word. -/
theorem isWordByte_of_isTrailing (h : Source.isTrailing b) : isWordByte b = false := by
  rcases Source.isTrailing_iff.mp h with rfl | rfl | rfl <;> rfl

/-- A cursor cuts its line in two. -/
theorem parts_of_line (h : (text.splitOn 10)[cursor.line]? = some line) :
    cursor.parts text = (line.take cursor.character, line.drop cursor.character) := by
  obtain ⟨hlt, rfl⟩ := List.getElem?_eq_some_iff.mp h
  rw [parts, List.drop_eq_getElem_cons hlt]

/-- Behind the cursor, a word goes on up to the first byte of no word. -/
theorem takeWhile_append (hword : ∀ b ∈ word, isWordByte b)
    (hback : ∀ b ∈ back.head?, isWordByte b = false) :
    (word ++ back).takeWhile isWordByte = word := by
  rw [List.takeWhile_append_of_pos hword]
  cases back with
  | nil => exact List.append_nil word
  | cons b rest => rw [List.takeWhile_cons_of_neg (by simp [hback b rfl]), List.append_nil]

/-- In front of the cursor, a word reaches back to the last byte of no word. -/
theorem trailing_append (hword : ∀ b ∈ word, isWordByte b)
    (hfront : ∀ b ∈ front.getLast?, isWordByte b = false) :
    trailing (front ++ word) = word := by
  rw [trailing, List.reverse_append, takeWhile_append (by simpa using hword) (by simpa using hfront),
    List.reverse_reverse]

/-- A stretch of word bytes with none beside it is the word at every cursor that touches it, and its
part before the cursor is the word before the cursor. -/
theorem words_of_stretch (hline : (text.splitOn 10)[cursor.line]? = some (front ++ (word ++ back)))
    (hword : ∀ b ∈ word, isWordByte b) (hfront : ∀ b ∈ front.getLast?, isWordByte b = false)
    (hback : ∀ b ∈ back.head?, isWordByte b = false) {offset : Nat}
    (hcharacter : cursor.character = front.length + offset) (hoffset : offset ≤ word.length) :
    cursor.wordAt text = word ∧ cursor.wordBefore text = word.take offset := by
  have hparts : cursor.parts text = (front ++ word.take offset, word.drop offset ++ back) := by
    rw [parts_of_line hline, hcharacter, List.take_length_add_append, List.drop_length_add_append,
      List.take_append_of_le_length hoffset, List.drop_append_of_le_length hoffset]
  have hbefore : trailing (front ++ word.take offset) = word.take offset :=
    trailing_append (fun b hb => hword b (List.mem_of_mem_take hb)) hfront
  have hbehind : (word.drop offset ++ back).takeWhile isWordByte = word.drop offset :=
    takeWhile_append (fun b hb => hword b (List.mem_of_mem_drop hb)) hback
  rw [wordAt, wordBefore, hparts]
  refine ⟨?_, hbefore⟩
  calc trailing (front ++ word.take offset) ++ (word.drop offset ++ back).takeWhile isWordByte
      = word.take offset ++ word.drop offset := by rw [hbefore, hbehind]
    _ = word := List.take_append_drop offset word

/-- Letters, digits and underscores belong to words. -/
theorem isWordByte_of_plain (h : Byte.isLetter b ∨ Byte.isDigit b ∨ b = 95) : isWordByte b := by
  rcases h with h | h | rfl <;> simp [isWordByte, *]

/-- The editor finds the words of the lexer. Take any text, a statement that the lexer reads from it,
and a word of the statement that is made of letters, digits and underscores. At every cursor on the
line of the word, from its first column to the one behind it, the word at the cursor is that word, and
the word before the cursor is the part of it in front of the cursor. -/
theorem words_at_cursor_are_tokens {text : Text} {statement : Statement} {token : Token} {cursor : Cursor}
    (hstatement : statement ∈ (Source.lex text).statements) (htoken : token ∈ statement.tokens)
    (hplain : ∀ b ∈ token.text, Byte.isLetter b ∨ Byte.isDigit b ∨ b = 95)
    (hline : (cursor.line : Int) = token.line - 1) (hfrom : token.column ≤ cursor.character)
    (hto : cursor.character ≤ token.column + token.text.length) :
    cursor.wordAt text = token.text ∧
      cursor.wordBefore text = token.text.take (cursor.character - token.column).toNat := by
  obtain ⟨i, front, back, hnumber, hfound, hcolumn, hfront, hback⟩ :=
    (Source.standsIn_of_lex hstatement).exists_around htoken
  have hindex : i = cursor.line := by omega
  exact words_of_stretch (hindex ▸ hfound) (fun b hb => isWordByte_of_plain (hplain b hb))
    (fun b hb => isWordByte_of_isTrailing (hfront b hb)) (fun b hb => isWordByte_of_isTrailing (hback b hb))
    (by omega) (by omega)

/-- A document with carriage returns, a tab between words, a comment and a line that stops the lexer. -/
def adding : Text := "macro global bump address a\r\n    _add\ta 1 \t# one more\r\r\nreg x_2\r\n  bad\r\n"

/-- The words at both edges of a token and inside it. -/
theorem words_at_cursor_are_tokens_adding :
    (wordAt ⟨1, 4⟩ adding = "_add" ∧ wordBefore ⟨1, 4⟩ adding = []) ∧
      (wordAt ⟨1, 6⟩ adding = "_add" ∧ wordBefore ⟨1, 6⟩ adding = "_a") ∧
        wordAt ⟨2, 7⟩ adding = "x_2" ∧ wordBefore ⟨2, 7⟩ adding = "x_2" := by
  have hadd : (⟨2, 1, ⟨2, 4, "_add"⟩, [⟨2, 9, "a"⟩, ⟨2, 11, "1"⟩],
      "    _add\ta 1 \t# one more"⟩ : Statement) ∈
      (Source.lex adding).statements := by decide +kernel
  have hreg : (⟨3, 0, ⟨3, 0, "reg"⟩, [⟨3, 4, "x_2"⟩], "reg x_2"⟩ : Statement) ∈
      (Source.lex adding).statements := by decide +kernel
  have haddPlain : ∀ b ∈ Text.ofString "_add", Byte.isLetter b ∨ Byte.isDigit b ∨ b = 95 := by decide +kernel
  have hregPlain : ∀ b ∈ Text.ofString "x_2", Byte.isLetter b ∨ Byte.isDigit b ∨ b = 95 := by decide +kernel
  exact ⟨words_at_cursor_are_tokens hadd List.mem_cons_self haddPlain rfl (by decide) (by decide),
    words_at_cursor_are_tokens hadd List.mem_cons_self haddPlain rfl (by decide) (by decide),
    words_at_cursor_are_tokens hreg (List.mem_cons_of_mem _ List.mem_cons_self) hregPlain rfl (by decide)
      (by decide)⟩

end Cursor

end Tapestry

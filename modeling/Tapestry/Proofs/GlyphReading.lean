import Mathlib.Data.List.DropRight
import Tapestry.Proofs.ItemReading

/-!
# Reading and writing glyphs

A text is read from the front: its first byte and some bytes behind it make the first glyph, and the
glyphs of the rest follow. The bytes of a glyph are those it was read from, so writing the glyphs of
a text gives the text again, and trimming a text takes a stretch out of it.
-/

namespace Tapestry.Utf8

variable {b a : UInt8} {char : Char} {n : Nat}

/-! ## Single glyphs -/

/-- A number that is a code point is that of its character. -/
theorem toNat_val_ofNat (h : n.isValidChar) : (Char.ofNat n).val.toNat = n := by
  rw [Char.ofNat, dif_pos h]
  rfl

/-- A byte is told by its number. -/
theorem ofNat_eq_of_toNat (h : n = b.toNat) : UInt8.ofNat n = b :=
  h ▸ UInt8.ofNat_toNat

/-- Bytes are ordered as their numbers are. -/
theorem toNat_bounds {low high : UInt8} (hlow : low ≤ a) (hhigh : a ≤ high) :
    low.toNat ≤ a.toNat ∧ a.toNat ≤ high.toNat :=
  ⟨UInt8.le_iff_toNat_le.mp hlow, UInt8.le_iff_toNat_le.mp hhigh⟩

/-- The bounds of a byte inside a code point. -/
theorem toNat_bounds_of_isTail (h : isTail b = true) : 0x80 ≤ b.toNat ∧ b.toNat ≤ 0xBF := by
  simpa [isTail, UInt8.le_iff_toNat_le] using h

/-- The second byte of a longer sequence is a tail byte, from a later one on behind one lead and up to
an earlier one behind another. -/
theorem toNat_bounds_of_second {short long low high : UInt8}
    (hlow : (if a == short then low else 0x80) ≤ b) (hhigh : b ≤ if a == long then high else 0xBF)
    (hshort : 0x80 ≤ low) (hlong : high ≤ 0xBF) :
    0x80 ≤ b.toNat ∧ b.toNat ≤ 0xBF ∧ (a.toNat = short.toNat → low.toNat ≤ b.toNat) ∧
      (a.toNat = long.toNat → b.toNat ≤ high.toNat) := by
  rw [UInt8.le_iff_toNat_le] at hlow hhigh hshort hlong
  rw [UInt8.toNat_inj, UInt8.toNat_inj]
  refine ⟨?_, ?_, ?_, ?_⟩
  · split at hlow
    · exact Nat.le_trans hshort hlow
    · exact hlow
  · split at hhigh
    · exact Nat.le_trans hhigh hlong
    · exact hhigh
  · intro heq
    simpa [heq] using hlow
  · intro heq
    simpa [heq] using hhigh

/-- One byte is written for an ASCII character. -/
theorem encode_ascii (h : a < 0x80) : String.utf8EncodeChar (Char.ofNat a.toNat) = [a] := by
  have ha : a.toNat < 0x80 := UInt8.lt_iff_toNat_lt.mp h
  have hcode : (Char.ofNat a.toNat).val.toNat = a.toNat := toNat_val_ofNat (.inl (by omega))
  rw [String.utf8EncodeChar, hcode]
  simp only [if_pos (show a.toNat ≤ 127 by omega), UInt8.ofNat_toNat]

/-- Two bytes that are read as a character encode it. -/
theorem encode_two (h : two? a b = some char) : String.utf8EncodeChar char = [a, b] := by
  obtain ⟨hbytes, hchar⟩ := Option.ite_none_right_eq_some.mp h
  simp only [Bool.and_eq_true, decide_eq_true_eq] at hbytes
  obtain ⟨⟨hlow, hhigh⟩, htail⟩ := hbytes
  obtain ⟨ha, ha'⟩ : 0xC2 ≤ a.toNat ∧ a.toNat ≤ 0xDF := toNat_bounds hlow hhigh
  obtain ⟨hb, hb'⟩ := toNat_bounds_of_isTail htail
  obtain rfl := Option.some.inj hchar
  generalize hcode : (a.toNat - 0xC0) * 64 + (b.toNat - 0x80) = code
  rw [String.utf8EncodeChar, toNat_val_ofNat (.inl (by omega))]
  simp only [if_neg (show ¬code ≤ 127 by omega), if_pos (show code ≤ 2047 by omega)]
  rw [ofNat_eq_of_toNat (show _ = a.toNat by omega), ofNat_eq_of_toNat (show _ = b.toNat by omega)]

/-- Three bytes that are read as a character encode it. -/
theorem encode_three {c : UInt8} (h : three? a b c = some char) :
    String.utf8EncodeChar char = [a, b, c] := by
  obtain ⟨hbytes, hchar⟩ := Option.ite_none_right_eq_some.mp h
  simp only [Bool.and_eq_true, decide_eq_true_eq] at hbytes
  obtain ⟨⟨⟨⟨hlow, hhigh⟩, hsecond⟩, hsecond'⟩, htail⟩ := hbytes
  obtain ⟨ha, ha'⟩ : 0xE0 ≤ a.toNat ∧ a.toNat ≤ 0xEF := toNat_bounds hlow hhigh
  obtain ⟨hb, hb', hshort, hsurrogate⟩ :
      0x80 ≤ b.toNat ∧ b.toNat ≤ 0xBF ∧ (a.toNat = 0xE0 → 0xA0 ≤ b.toNat) ∧
        (a.toNat = 0xED → b.toNat ≤ 0x9F) :=
    toNat_bounds_of_second hsecond hsecond' (by decide) (by decide)
  obtain ⟨hc, hc'⟩ := toNat_bounds_of_isTail htail
  obtain rfl := Option.some.inj hchar
  generalize hcode : (a.toNat - 0xE0) * 4096 + (b.toNat - 0x80) * 64 + (c.toNat - 0x80) = code
  have hvalid : code < 0xD800 ∨ 0xDFFF < code ∧ code < 0x110000 := by omega
  rw [String.utf8EncodeChar, toNat_val_ofNat hvalid]
  simp only [if_neg (show ¬code ≤ 127 by omega), if_neg (show ¬code ≤ 2047 by omega),
    if_pos (show code ≤ 65535 by omega)]
  rw [ofNat_eq_of_toNat (show _ = a.toNat by omega), ofNat_eq_of_toNat (show _ = b.toNat by omega),
    ofNat_eq_of_toNat (show _ = c.toNat by omega)]

/-- Four bytes that are read as a character encode it. -/
theorem encode_four {c d : UInt8} (h : four? a b c d = some char) :
    String.utf8EncodeChar char = [a, b, c, d] := by
  obtain ⟨hbytes, hchar⟩ := Option.ite_none_right_eq_some.mp h
  simp only [Bool.and_eq_true, decide_eq_true_eq] at hbytes
  obtain ⟨⟨⟨⟨⟨hlow, hhigh⟩, hsecond⟩, hsecond'⟩, hthird⟩, htail⟩ := hbytes
  obtain ⟨ha, ha'⟩ : 0xF0 ≤ a.toNat ∧ a.toNat ≤ 0xF4 := toNat_bounds hlow hhigh
  obtain ⟨hb, hb', hshort, hlast⟩ :
      0x80 ≤ b.toNat ∧ b.toNat ≤ 0xBF ∧ (a.toNat = 0xF0 → 0x90 ≤ b.toNat) ∧
        (a.toNat = 0xF4 → b.toNat ≤ 0x8F) :=
    toNat_bounds_of_second hsecond hsecond' (by decide) (by decide)
  obtain ⟨hc, hc'⟩ := toNat_bounds_of_isTail hthird
  obtain ⟨hd, hd'⟩ := toNat_bounds_of_isTail htail
  obtain rfl := Option.some.inj hchar
  generalize hcode : (a.toNat - 0xF0) * 262144 + (b.toNat - 0x80) * 4096 + (c.toNat - 0x80) * 64 +
    (d.toNat - 0x80) = code
  have hvalid : code < 0xD800 ∨ 0xDFFF < code ∧ code < 0x110000 := by omega
  rw [String.utf8EncodeChar, toNat_val_ofNat hvalid]
  simp only [if_neg (show ¬code ≤ 127 by omega), if_neg (show ¬code ≤ 2047 by omega),
    if_neg (show ¬code ≤ 65535 by omega)]
  rw [ofNat_eq_of_toNat (show _ = a.toNat by omega), ofNat_eq_of_toNat (show _ = b.toNat by omega),
    ofNat_eq_of_toNat (show _ = c.toNat by omega), ofNat_eq_of_toNat (show _ = d.toNat by omega)]

/-- The bytes of a glyph are those it was read from, if that is so where a code point is found and where
none is. -/
theorem bytes_elim {rest : Text} {code? : Option Char} {count : Nat} {other : Glyph × Nat}
    (hcode : ∀ char, code? = some char → String.utf8EncodeChar char = a :: rest.take count)
    (hother : other.1.bytes = a :: rest.take other.2) :
    (code?.elim other fun char => (.scalar char, count)).1.bytes =
      a :: rest.take (code?.elim other fun char => (.scalar char, count)).2 := by
  cases code? with
  | none => exact hother
  | some char => exact hcode char rfl

/-- The bytes of the first glyph are those it was read from. -/
theorem bytes_first (a : UInt8) (rest : Text) :
    (first a rest).1.bytes = a :: rest.take (first a rest).2 := by
  unfold first
  split
  case isTrue hascii => exact encode_ascii hascii
  case isFalse =>
    match rest with
    | [] => rfl
    | [b] => exact bytes_elim (fun _ h => encode_two h) rfl
    | [b, c] => exact bytes_elim (fun _ h => encode_two h) (bytes_elim (fun _ h => encode_three h) rfl)
    | b :: c :: d :: rest =>
      exact bytes_elim (fun _ h => encode_two h)
        (bytes_elim (fun _ h => encode_three h) (bytes_elim (fun _ h => encode_four h) rfl))

/-! ## Texts -/

/-- Bytes that are skipped give no glyphs. -/
theorem read_skip (skip : Nat) (t : Text) : read #[] skip t = glyphs (t.drop skip) := by
  induction t generalizing skip with
  | nil => cases skip <;> rfl
  | cons a rest ih =>
    cases skip with
    | zero => rfl
    | succ skip => exact ih skip

/-- A text is read as its first glyph and the glyphs of the bytes behind it. -/
theorem glyphs_cons (a : UInt8) (rest : Text) :
    glyphs (a :: rest) = (first a rest).1 :: glyphs (rest.drop (first a rest).2) := by
  rw [glyphs, read, read_eq, read_skip]
  rfl

/-- An ASCII byte is a glyph of its own. -/
theorem glyphs_ascii (h : a < 0x80) (rest : Text) :
    glyphs (a :: rest) = .scalar (Char.ofNat a.toNat) :: glyphs rest := by
  have hfirst : first a rest = (.scalar (Char.ofNat a.toNat), 0) := if_pos h
  rw [glyphs_cons, hfirst, List.drop_zero]

/-- The bytes of glyphs are written in turn. -/
theorem text_append (front back : List Glyph) : text (front ++ back) = text front ++ text back :=
  List.flatMap_append

/-- Writing the glyphs of a text gives the text. -/
theorem text_glyphs (t : Text) : text (glyphs t) = t := by
  induction hlength : t.length using Nat.strong_induction_on generalizing t with
  | _ length ih =>
    cases t with
    | nil => rfl
    | cons a rest =>
      have hshorter : (rest.drop (first a rest).2).length < length := by
        rw [← hlength, List.length_drop, List.length_cons]
        omega
      have hrest := ih _ hshorter _ rfl
      rw [text] at hrest
      rw [glyphs_cons, text, List.flatMap_cons, hrest, bytes_first, List.cons_append,
        List.take_append_drop]

/-! ## Trimming -/

/-- Text is trimmed by its glyphs. -/
theorem trim_eq (t : Text) : trim t = text (((glyphs t).dropWhile isSpace).rdropWhile isSpace) := rfl

/-- Trimming takes a stretch out of a text. -/
theorem trim_infix (t : Text) : trim t <:+: t := by
  obtain ⟨front, hfront⟩ := List.dropWhile_suffix isSpace (l := glyphs t)
  obtain ⟨back, hback⟩ := List.rdropWhile_prefix isSpace ((glyphs t).dropWhile isSpace)
  refine ⟨text front, text back, ?_⟩
  rw [trim_eq, List.append_assoc, ← text_append, hback, ← text_append, hfront, text_glyphs]

/-- White space in front does not matter. -/
theorem trim_cons_of_isSpace (hascii : a < 0x80)
    (hspace : isSpace (.scalar (Char.ofNat a.toNat)) = true) (rest : Text) :
    trim (a :: rest) = trim rest := by
  rw [trim_eq, glyphs_ascii hascii, List.dropWhile_cons_of_pos hspace, trim_eq]

/-- Nothing is taken away in front of a character that is no white space. -/
theorem trim_prefix (hascii : a < 0x80) (hsolid : isSpace (.scalar (Char.ofNat a.toNat)) = false)
    (rest : Text) :
    trim (a :: rest) <+: a :: rest := by
  obtain ⟨back, hback⟩ := List.rdropWhile_prefix isSpace (glyphs (a :: rest))
  refine ⟨text back, ?_⟩
  have hfront : (glyphs (a :: rest)).dropWhile isSpace = glyphs (a :: rest) := by
    rw [glyphs_ascii hascii, List.dropWhile_cons_of_neg (by simp [hsolid])]
  rw [trim_eq, hfront, ← text_append, hback, text_glyphs]

end Tapestry.Utf8

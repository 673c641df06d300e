import Tapestry.Image.Codec
import Tapestry.Proofs.ImageEncoding

/-!
# What a reader takes

Reading adds no bytes, so the texts of an item that was read are no longer than what it was read
from, and its lists are no longer than a reader accepts. Chunks of well-formed text are well formed
together, since every code point ends within its chunk.
-/

namespace Tapestry

/-! ## Well-formed text -/

namespace Utf8

/-- Text is well formed if it is made of code points. -/
theorem valid_iff {t : Text} : valid t = true ↔ ∀ glyph ∈ glyphs t, ∃ char, glyph = .scalar char := by
  rw [valid, List.all_eq_true]
  refine forall₂_congr fun glyph _ => ?_
  cases glyph <;> simp

/-- A code point is read the same when more bytes follow. -/
theorem first_append {a : UInt8} {rest : Text} {char : Char} (h : (first a rest).1 = .scalar char)
    (more : Text) : first a (rest ++ more) = first a rest := by
  unfold first at h ⊢
  split
  case isTrue => rfl
  case isFalse hhigh =>
    rw [if_neg hhigh] at h
    match rest with
    | [] => cases h
    | [b] =>
      cases htwo : two? a b with
      | none => simp [htwo] at h
      | some char =>
        rcases more with _ | ⟨c, _ | ⟨d, more⟩⟩ <;> simp [htwo]
    | [b, c] =>
      cases htwo : two? a b with
      | some char => cases more <;> simp [htwo]
      | none =>
        cases hthree : three? a b c with
        | none => simp [htwo, hthree] at h
        | some char => cases more <;> simp [htwo, hthree]
    | b :: c :: d :: rest => rfl

/-- A code point takes no bytes but those that are there. -/
theorem first_le (a : UInt8) (rest : Text) : (first a rest).2 ≤ rest.length := by
  unfold first
  split
  · exact Nat.zero_le _
  · match rest with
    | [] => exact Nat.le_refl _
    | [b] => cases htwo : two? a b <;> simp [htwo]
    | [b, c] =>
      cases htwo : two? a b <;> cases hthree : three? a b c <;> simp [htwo, hthree]
    | b :: c :: d :: rest =>
      cases htwo : two? a b <;> cases hthree : three? a b c <;> cases hfour : four? a b c d <;>
        simp [htwo, hthree, hfour]

/-- Glyphs are read behind those read before. -/
theorem read_eq (before : Array Glyph) (skip : Nat) (t : Text) :
    read before skip t = before.toList ++ read #[] skip t := by
  induction t generalizing before skip with
  | nil => simp [read]
  | cons a rest ih =>
    cases skip with
    | succ skip => exact ih before skip
    | zero =>
      rw [read, read, ih, ih (#[].push _)]
      simp

/-- A text behind a well-formed one is read on its own. -/
theorem read_append {t : Text} {skip : Nat} (hskip : skip ≤ t.length)
    (h : ∀ glyph ∈ read #[] skip t, ∃ char, glyph = .scalar char) (more : Text) :
    read #[] skip (t ++ more) = read #[] skip t ++ read #[] 0 more := by
  induction t generalizing skip with
  | nil =>
    obtain rfl : skip = 0 := Nat.le_zero.mp hskip
    rfl
  | cons a rest ih =>
    cases skip with
    | succ skip => exact ih (Nat.le_of_succ_le_succ hskip) h
    | zero =>
      rw [read, read_eq] at h
      obtain ⟨hfirst, hrest⟩ := List.forall_mem_append.mp h
      obtain ⟨char, hchar⟩ := hfirst (first a rest).1 (by simp)
      rw [List.cons_append, read, read, first_append hchar, read_eq, ih (first_le a rest) hrest,
        read_eq (#[].push _), List.append_assoc]

/-- Well-formed texts are well formed together. -/
theorem valid_append {a b : Text} (ha : valid a = true) (hb : valid b = true) :
    valid (a ++ b) = true := by
  rw [valid_iff] at ha hb ⊢
  rw [glyphs, read_append (Nat.zero_le _) ha]
  exact List.forall_mem_append.mpr ⟨ha, hb⟩

/-- Well-formed chunks are well formed together. -/
theorem valid_flatten {chunks : List Text} (h : ∀ chunk ∈ chunks, valid chunk = true) :
    valid chunks.flatten = true := by
  induction chunks with
  | nil => rfl
  | cons chunk rest ih =>
    obtain ⟨hchunk, hrest⟩ := List.forall_mem_cons.mp h
    exact valid_append hchunk (ih hrest)

end Utf8

/-- What is read from a list comes from its items, one from each. -/
theorem mapM_eq_some {α β : Type} {read : α → Option β} {items : List α} {values : List β}
    (h : items.mapM read = some values) :
    values.length = items.length ∧ ∀ value ∈ values, ∃ item ∈ items, read item = some value := by
  induction items generalizing values with
  | nil =>
    cases h
    simp
  | cons item rest ih =>
    rw [List.mapM_cons] at h
    obtain ⟨value, hvalue, h⟩ := Option.bind_eq_some_iff.mp h
    obtain ⟨others, hothers, h⟩ := Option.bind_eq_some_iff.mp h
    cases h
    obtain ⟨hlength, hfrom⟩ := ih hothers
    refine ⟨by simp [hlength], List.forall_mem_cons.mpr ⟨⟨item, List.mem_cons_self, hvalue⟩, ?_⟩⟩
    intro other hother
    obtain ⟨source, hsource, hread⟩ := hfrom other hother
    exact ⟨source, List.mem_cons_of_mem _ hsource, hread⟩

namespace Cbor

/-! ## Readers -/

/-- From no more than `size` bytes, a reader gives what is good, and leaves room for its weight among
the bytes it takes. -/
def Yields {α : Type} (read : Reader α) (size : Nat) (weigh : α → Nat) (good : α → Prop) : Prop :=
  ∀ ⦃bytes item rest⦄, bytes.length ≤ size → read bytes = some (item, rest) →
    good item ∧ weigh item + rest.length ≤ bytes.length

section Readers

variable {α : Type} {read : Reader α} {size : Nat} {weigh : α → Nat} {good : α → Prop}

/-- Bytes that are taken and those left are all that were there. -/
theorem length_of_take? {count : Nat} {bytes taken rest : Text}
    (h : take? count bytes = some (taken, rest)) : taken.length + rest.length = bytes.length := by
  unfold take? at h
  split at h
  case isTrue hcount =>
    cases h
    rw [List.length_take, List.length_drop]
    omega
  case isFalse => cases h

/-- Reading an argument adds no bytes. -/
theorem length_of_argument? {info n : Nat} {bytes rest : Text}
    (h : argument? info bytes = some (n, rest)) : rest.length ≤ bytes.length := by
  have hwide {width : Nat} {read : Text × Text → Nat × Text} (hread : ∀ found, (read found).2 = found.2)
      (h : (take? width bytes).map read = some (n, rest)) : rest.length ≤ bytes.length := by
    obtain ⟨found, htake, heq⟩ := Option.map_eq_some_iff.mp h
    have hlength := length_of_take? htake
    have hrest : found.2 = rest := by rw [← hread, heq]
    rw [hrest] at hlength
    omega
  unfold argument? at h
  dsimp only at h
  split at h
  · cases h
    exact Nat.le_refl _
  · split at h
    · exact hwide (fun _ => rfl) h
    · split at h
      · exact hwide (fun _ => rfl) h
      · split at h
        · exact hwide (fun _ => rfl) h
        · split at h
          · exact hwide (fun _ => rfl) h
          · cases h

/-- Reading so many items keeps to the bytes that each of them keeps to. -/
theorem yields_many (h : Yields read size weigh good) (count : Nat) :
    Yields (many? read count) size (fun items => (items.map weigh).sum)
      fun items => items.length = count ∧ ∀ item ∈ items, good item := by
  induction count with
  | zero =>
    intro bytes items rest _ hread
    cases hread
    simp
  | succ count ih =>
    intro bytes items rest hsize hread
    obtain ⟨⟨item, left⟩, hitem, hread⟩ := Option.bind_eq_some_iff.mp hread
    obtain ⟨⟨others, last⟩, hothers, hread⟩ := Option.bind_eq_some_iff.mp hread
    cases hread
    obtain ⟨hgood, hweight⟩ := h hsize hitem
    obtain ⟨⟨hcount, hall⟩, hsum⟩ := ih (by omega) hothers
    refine ⟨⟨by simp [hcount], List.forall_mem_cons.mpr ⟨hgood, hall⟩⟩, ?_⟩
    dsimp only at hsum ⊢
    rw [List.map_cons, List.sum_cons]
    omega

/-- Reading items up to a break keeps to the bytes that each of them keeps to, and to the limit. -/
theorem yields_untilBreak (h : Yields read size weigh good) (limit : Nat) :
    Yields (untilBreak? read limit) size (fun items => (items.map weigh).sum)
      fun items => items.length ≤ limit ∧ ∀ item ∈ items, good item := by
  induction limit with
  | zero =>
    intro bytes items rest _ hread
    cases bytes with
    | nil => cases hread
    | cons byte bytes =>
      rw [untilBreak?] at hread
      split at hread
      case isTrue =>
        cases hread
        simp
      case isFalse => cases hread
  | succ limit ih =>
    intro bytes items rest hsize hread
    cases bytes with
    | nil => cases hread
    | cons byte bytes =>
      rw [untilBreak?] at hread
      split at hread
      case isTrue =>
        cases hread
        simp
      case isFalse =>
        obtain ⟨⟨item, left⟩, hitem, hread⟩ := Option.bind_eq_some_iff.mp hread
        obtain ⟨⟨others, last⟩, hothers, hread⟩ := Option.bind_eq_some_iff.mp hread
        cases hread
        obtain ⟨hgood, hweight⟩ := h hsize hitem
        obtain ⟨⟨hcount, hall⟩, hsum⟩ := ih (by omega) hothers
        refine ⟨⟨by simpa using hcount, List.forall_mem_cons.mpr ⟨hgood, hall⟩⟩, ?_⟩
        dsimp only at hsum ⊢
        rw [List.map_cons, List.sum_cons]
        omega

/-- The entries of a list or map are no more than are accepted. -/
theorem yields_entries (h : Yields read size weigh good) (info : Nat) :
    Yields (entries? read info) size (fun _ => 0)
      fun items => items.length ≤ maxEntries ∧ ∀ item ∈ items, good item := by
  intro bytes items rest hsize hread
  unfold entries? at hread
  split at hread
  case isTrue =>
    obtain ⟨hgood, hsum⟩ := yields_untilBreak h maxEntries hsize hread
    exact ⟨hgood, by dsimp only; omega⟩
  case isFalse =>
    obtain ⟨⟨count, left⟩, hcount, hread⟩ := Option.bind_eq_some_iff.mp hread
    have hleft := length_of_argument? hcount
    dsimp only at hread
    split at hread
    case isTrue => cases hread
    case isFalse hfew =>
      obtain ⟨⟨hlength, hgood⟩, hsum⟩ := yields_many h count (by omega) hread
      exact ⟨⟨by omega, hgood⟩, by dsimp only; omega⟩

end Readers

/-- The chunks of a string are no longer than the bytes it was read from. -/
theorem yields_chunk (major size : Nat) : Yields (chunk? major) size List.length fun _ => True := by
  intro bytes chunk rest _ hread
  cases bytes with
  | nil => cases hread
  | cons byte bytes =>
    rw [chunk?] at hread
    split at hread
    case isTrue =>
      obtain ⟨⟨length, left⟩, hlength, hread⟩ := Option.bind_eq_some_iff.mp hread
      have hleft := length_of_argument? hlength
      have htaken := length_of_take? hread
      exact ⟨trivial, by rw [List.length_cons]; omega⟩
    case isFalse => cases hread

/-- Chunks hold no more bytes than they were read from. -/
theorem yields_chunks (major info size : Nat) :
    Yields (chunks? major info) size (fun chunks => chunks.flatten.length) fun _ => True := by
  intro bytes chunks rest hsize hread
  refine ⟨trivial, ?_⟩
  dsimp only
  unfold chunks? at hread
  split at hread
  case isTrue =>
    obtain ⟨_, hsum⟩ := yields_untilBreak (yields_chunk major size) _ hsize hread
    rwa [List.length_flatten]
  case isFalse =>
    obtain ⟨⟨length, left⟩, hlength, hread⟩ := Option.bind_eq_some_iff.mp hread
    obtain ⟨⟨contents, last⟩, htake, hread⟩ := Option.bind_eq_some_iff.mp hread
    cases hread
    have hleft := length_of_argument? hlength
    have htaken := length_of_take? htake
    simp only [List.flatten_cons, List.flatten_nil, List.append_nil]
    omega

/-! ## Items -/

/-- An item whose texts are no longer than `size`, and whose lists are no longer than a reader
accepts. -/
inductive Bounded (size : Nat) : Cbor → Prop where
  | unsigned (n) : Bounded size (.unsigned n)
  | negative (n) : Bounded size (.negative n)
  | binary (contents) : Bounded size (.binary contents)
  | text {chunks} (short : chunks.flatten.length ≤ size) : Bounded size (.text chunks)
  | array {items} (few : items.length ≤ maxEntries) (each : ∀ item ∈ items, Bounded size item) :
    Bounded size (.array items)
  | map {entries} (keys : ∀ entry ∈ entries, Bounded size (Prod.fst entry))
      (values : ∀ entry ∈ entries, Bounded size (Prod.snd entry)) : Bounded size (.map entries)
  | tag (number) {content} (inside : Bounded size content) : Bounded size (.tag number content)
  | simple (number) : Bounded size (.simple number)
  | float (bits) : Bounded size (.float bits)

section Items

variable {size : Nat} {bytes : Text} {item : Cbor}

/-- A reader gives items that are bounded by what they are read from. -/
abbrev YieldsItems (size : Nat) (read : Reader Cbor) : Prop :=
  Yields read size (fun _ => 0) (Bounded size)

/-- The key and the value of an entry are bounded by what they were read from. -/
theorem yields_pair {one : Reader Cbor} (h : YieldsItems size one) :
    Yields (pair? one) size (fun _ => 0) fun entry => Bounded size entry.1 ∧ Bounded size entry.2 := by
  intro bytes entry rest hsize hread
  obtain ⟨⟨key, left⟩, hkey, hread⟩ := Option.bind_eq_some_iff.mp hread
  obtain ⟨⟨value, last⟩, hvalue, hread⟩ := Option.bind_eq_some_iff.mp hread
  cases hread
  obtain ⟨hfirst, hleft⟩ := h hsize hkey
  obtain ⟨hsecond, hlast⟩ := h (by omega) hvalue
  dsimp only at hleft hlast ⊢
  exact ⟨⟨hfirst, hsecond⟩, by omega⟩

/-- A simple value or a float is bounded by what it was read from. -/
theorem yields_simple (info : Nat) : YieldsItems size (simple? info) := by
  intro bytes item rest _ hread
  have hwide {width : Nat} {make : Text × Text → Cbor × Text}
      (hmake : ∀ found, make found = (.float found.1, found.2))
      (h : (take? width bytes).map make = some (item, rest)) :
      Bounded size item ∧ 0 + rest.length ≤ bytes.length := by
    obtain ⟨found, htake, heq⟩ := Option.map_eq_some_iff.mp h
    have hlength := length_of_take? htake
    obtain ⟨rfl, rfl⟩ := Prod.mk.inj ((hmake found).symm.trans heq)
    exact ⟨.float _, by omega⟩
  unfold simple? at hread
  dsimp only at hread
  split at hread
  case isTrue => exact hwide (fun _ => rfl) hread
  case isFalse =>
    split at hread
    case isTrue => exact hwide (fun _ => rfl) hread
    case isFalse =>
      split at hread
      case isTrue => exact hwide (fun _ => rfl) hread
      case isFalse =>
        obtain ⟨⟨number, left⟩, hargument, hread⟩ := Option.bind_eq_some_iff.mp hread
        have hleft := length_of_argument? hargument
        dsimp only at hread
        split at hread
        case isTrue => cases hread
        case isFalse =>
          cases hread
          exact ⟨.simple number, by dsimp only; omega⟩

/-- An item without tags is bounded by what it was read from, if those inside it are. -/
theorem yields_untagged {nested : Option (Reader Cbor)}
    (h : ∀ one, nested = some one → YieldsItems size one) : YieldsItems size (untagged? nested) := by
  intro bytes item rest hsize hread
  cases bytes with
  | nil => cases hread
  | cons byte bytes =>
    have hless : bytes.length ≤ size := Nat.le_of_succ_le hsize
    rw [List.length_cons]
    unfold untagged? at hread
    dsimp only at hread
    split at hread
    case h_1 =>
      obtain ⟨⟨n, left⟩, hargument, hread⟩ := Option.bind_eq_some_iff.mp hread
      cases hread
      have hleft := length_of_argument? hargument
      exact ⟨.unsigned n, by dsimp only; omega⟩
    case h_2 =>
      obtain ⟨⟨n, left⟩, hargument, hread⟩ := Option.bind_eq_some_iff.mp hread
      cases hread
      have hleft := length_of_argument? hargument
      exact ⟨.negative n, by dsimp only; omega⟩
    case h_3 =>
      obtain ⟨⟨chunks, left⟩, hchunks, hread⟩ := Option.bind_eq_some_iff.mp hread
      cases hread
      obtain ⟨_, hleft⟩ := yields_chunks _ _ size hless hchunks
      exact ⟨.binary _, by dsimp only at hleft ⊢; omega⟩
    case h_4 =>
      obtain ⟨⟨chunks, left⟩, hchunks, hread⟩ := Option.bind_eq_some_iff.mp hread
      cases hread
      obtain ⟨_, hleft⟩ := yields_chunks _ _ size hless hchunks
      dsimp only at hleft ⊢
      exact ⟨.text (show chunks.flatten.length ≤ size by omega), by omega⟩
    case h_5 =>
      obtain ⟨one, hone, hread⟩ := Option.bind_eq_some_iff.mp hread
      obtain ⟨⟨items, left⟩, hitems, hread⟩ := Option.bind_eq_some_iff.mp hread
      cases hread
      obtain ⟨⟨hfew, heach⟩, hleft⟩ := yields_entries (h one hone) _ hless hitems
      exact ⟨.array hfew heach, by dsimp only at hleft ⊢; omega⟩
    case h_6 =>
      obtain ⟨one, hone, hread⟩ := Option.bind_eq_some_iff.mp hread
      obtain ⟨⟨entries, left⟩, hentries, hread⟩ := Option.bind_eq_some_iff.mp hread
      cases hread
      obtain ⟨⟨_, heach⟩, hleft⟩ := yields_entries (yields_pair (h one hone)) _ hless hentries
      exact ⟨.map (fun entry hentry => (heach entry hentry).1) (fun entry hentry => (heach entry hentry).2),
        by dsimp only at hleft ⊢; omega⟩
    case h_7 =>
      obtain ⟨hbounded, hleft⟩ := yields_simple _ hless hread
      exact ⟨hbounded, by omega⟩
    case h_8 => cases hread

/-- Reading tags adds no bytes. -/
theorem length_of_tags? {limit : Nat} {rest : Text} {numbers : List Nat}
    (h : tags? limit bytes = some (numbers, rest)) : rest.length ≤ bytes.length := by
  induction limit generalizing bytes numbers with
  | zero =>
    cases bytes with
    | nil =>
      cases h
      exact Nat.le_refl _
    | cons byte bytes =>
      rw [tags?] at h
      split at h
      case isTrue => cases h
      case isFalse =>
        cases h
        exact Nat.le_refl _
  | succ limit ih =>
    cases bytes with
    | nil =>
      cases h
      exact Nat.le_refl _
    | cons byte bytes =>
      rw [tags?] at h
      split at h
      case isTrue =>
        obtain ⟨⟨number, left⟩, hargument, h⟩ := Option.bind_eq_some_iff.mp h
        obtain ⟨⟨others, last⟩, hothers, h⟩ := Option.bind_eq_some_iff.mp h
        cases h
        have hleft := length_of_argument? hargument
        have hlast := ih hothers
        rw [List.length_cons]
        omega
      case isFalse =>
        cases h
        exact Nat.le_refl _

/-- Tags around an item keep its bounds. -/
theorem Bounded.tags (h : Bounded size item) (numbers : List Nat) :
    Bounded size (numbers.foldr Cbor.tag item) := by
  induction numbers with
  | nil => exact h
  | cons number rest ih => exact .tag number ih

/-- An item behind tags is bounded as it is without them. -/
theorem yields_tagged {limit : Nat} {untagged : List Nat → Reader Cbor}
    (h : ∀ numbers, YieldsItems size (untagged numbers)) {rest : Text} (hsize : bytes.length ≤ size)
    (hread : ((tags? limit bytes).bind fun found => (untagged found.1 found.2).bind fun result =>
      some (found.1.foldr tag result.1, result.2)) = some (item, rest)) :
    Bounded size item ∧ rest.length ≤ bytes.length := by
  obtain ⟨⟨numbers, left⟩, htags, hread⟩ := Option.bind_eq_some_iff.mp hread
  obtain ⟨⟨inner, last⟩, hinner, hread⟩ := Option.bind_eq_some_iff.mp hread
  cases hread
  have hleft := length_of_tags? htags
  obtain ⟨hbounded, hlast⟩ := h numbers (show left.length ≤ size by omega) hinner
  dsimp only at hlast ⊢
  exact ⟨hbounded.tags numbers, by omega⟩

/-- An item is bounded by what it was read from. -/
theorem yields_item (levels spent : Nat) : YieldsItems size (item? levels spent) := by
  induction levels generalizing spent with
  | zero =>
    intro bytes item rest hsize hread
    have hnone : ∀ _ : List Nat, YieldsItems size (untagged? none) :=
      fun _ => yields_untagged fun _ hone => nomatch hone
    obtain ⟨hbounded, hrest⟩ := yields_tagged hnone hsize hread
    exact ⟨hbounded, by dsimp only; omega⟩
  | succ levels ih =>
    intro bytes item rest hsize hread
    have hnested (numbers : List Nat) : YieldsItems size (untagged?
        (if spent + (numbers.length - 1) ≤ levels then
          some (item? levels (spent + (numbers.length - 1))) else none)) := by
      refine yields_untagged fun one hone => ?_
      split at hone
      case isTrue =>
        cases hone
        exact ih _
      case isFalse => cases hone
    obtain ⟨hbounded, hrest⟩ := yields_tagged hnested hsize hread
    exact ⟨hbounded, by dsimp only; omega⟩

/-- An item that was read is bounded by the bytes it was read from. -/
theorem bounded_of_read? (h : read? bytes = some item) : Bounded bytes.length item := by
  unfold read? at h
  split at h
  case h_1 found hitem =>
    cases h
    exact (yields_item maxLevels 0 (Nat.le_refl _) hitem).1
  case h_2 => cases h

/-! ## Contents -/

/-- An item is as bounded without its tags. -/
theorem Bounded.untag {inner : Cbor} (h : Bounded size item) (huntag : item.untag? = some inner) :
    Bounded size inner := by
  induction h with
  | tag number inside ih =>
    unfold untag? at huntag
    split at huntag
    case isTrue =>
      split at huntag
      case h_1 =>
        cases huntag
        exact .unsigned _
      case h_2 =>
        cases huntag
        exact .negative _
      case h_3 => exact ih huntag
    case isFalse => cases huntag
  | unsigned n => exact Option.some.inj huntag ▸ .unsigned n
  | negative n => exact Option.some.inj huntag ▸ .negative n
  | binary contents => exact Option.some.inj huntag ▸ .binary contents
  | text short => exact Option.some.inj huntag ▸ .text short
  | array few each _ => exact Option.some.inj huntag ▸ .array few each
  | map keys values _ _ => exact Option.some.inj huntag ▸ .map keys values
  | simple number => exact Option.some.inj huntag ▸ .simple number
  | float bits => exact Option.some.inj huntag ▸ .float bits

/-- A text that was read from few enough bytes can be stored. -/
theorem storable_of_text? {t : Text} (h : Bounded size item) (hsize : size < Number.span)
    (ht : item.text? = some t) : Storable t := by
  cases h with
  | @text chunks short =>
    rw [text?] at ht
    split at ht
    case isTrue hvalid =>
      cases ht
      exact ⟨Utf8.valid_flatten (List.all_eq_true.mp hvalid), Nat.lt_of_le_of_lt short hsize⟩
    case isFalse => cases ht
  | _ => cases ht

/-- A number that is read as a word fits a word. -/
theorem fits_of_word? {n : Int} (h : word? item = some n) : Number.fits n = true := by
  obtain ⟨found, _, h⟩ := Option.bind_eq_some_iff.mp h
  split at h
  case isTrue hbounds =>
    cases h
    exact Number.fits_iff.mpr hbounds
  case isFalse => cases h

/-- The values of a map that was read are bounded. -/
theorem bounded_of_fields? {fields : List (Text × Cbor)} (h : Bounded size item)
    (hfields : item.fields? = some fields) : ∀ field ∈ fields, Bounded size field.2 := by
  obtain ⟨inner, huntag, hfields⟩ := Option.bind_eq_some_iff.mp hfields
  have hinner := h.untag huntag
  split at hfields
  case isTrue =>
    cases hfields
    exact fun _ hfield => absurd hfield List.not_mem_nil
  case isFalse =>
    obtain ⟨entries, hentries, hfields⟩ := Option.bind_eq_some_iff.mp hfields
    cases hinner with
    | @map entries _ values =>
      cases hentries
      intro field hfield
      obtain ⟨entry, hentry, hread⟩ := (mapM_eq_some hfields).2 field hfield
      obtain ⟨name, _, rfl⟩ := Option.map_eq_some_iff.mp hread
      exact values entry hentry
    | _ => cases hentries

/-- An entry is read from a value of the map, unless it has its default. -/
theorem field?_cases {α : Type} {read : Cbor → Option α} {default value : α}
    {fields : List (Text × Cbor)} {key : Nat} (hfields : ∀ field ∈ fields, Bounded size field.2)
    (h : field? read default fields key = some value) :
    value = default ∨ ∃ item, Bounded size item ∧ read item = some value := by
  unfold field? at h
  split at h
  case h_1 => exact .inl (Option.some.inj h).symm
  case h_2 item hitem =>
    obtain ⟨inner, huntag, h⟩ := Option.bind_eq_some_iff.mp h
    split at h
    case isTrue => exact .inl (Option.some.inj h).symm
    case isFalse =>
      obtain ⟨front, back, hsplit, _⟩ := List.lookup_eq_some_iff.mp hitem
      have hbounded := hfields (Number.nat key, item) (by simp [hsplit])
      exact .inr ⟨inner, hbounded.untag huntag, h⟩

section Fields

variable {fields : List (Text × Cbor)} {key : Nat} (hfields : ∀ field ∈ fields, Bounded size field.2)
include hfields

/-- A text that a field gives can be stored. -/
theorem storable_of_field? (hsize : size < Number.span) {t : Text}
    (h : field? text? [] fields key = some t) : Storable t := by
  rcases field?_cases hfields h with rfl | ⟨item, hitem, hread⟩
  · exact ⟨rfl, by decide⟩
  · exact storable_of_text? hitem hsize hread

/-- A number that a field gives fits a word. -/
theorem fits_of_field? {n : Int} (h : field? word? 0 fields key = some n) : Number.fits n = true := by
  rcases field?_cases hfields h with rfl | ⟨item, _, hread⟩
  · rfl
  · exact fits_of_word? hread

/-- A list that was read has no more items than a reader accepts, each of them read from an item. -/
theorem listOf_of_field? {α : Type} {read : Cbor → Option α} {items : Option (List α)}
    (h : field? (Image.listOf? read) none fields key = some items) :
    (items.getD []).length ≤ maxEntries ∧
      ∀ value ∈ items.getD [], ∃ item, Bounded size item ∧ read item = some value := by
  rcases field?_cases hfields h with rfl | ⟨item, hitem, hread⟩
  · simp
  · obtain ⟨members, hmembers, hread⟩ := Option.bind_eq_some_iff.mp hread
    obtain ⟨values, hvalues, hread⟩ := Option.bind_eq_some_iff.mp hread
    cases hread
    cases hitem with
    | array few each =>
      cases hmembers
      obtain ⟨hlength, hfrom⟩ := mapM_eq_some hvalues
      refine ⟨hlength ▸ few, fun value hvalue => ?_⟩
      obtain ⟨member, hmember, hread⟩ := hfrom value hvalue
      exact ⟨member, each member hmember, hread⟩
    | _ => cases hmembers

end Fields

end Items

end Cbor

/-! ## Images -/

section Read

variable {size : Nat} {item : Cbor} (hitem : Cbor.Bounded size item) (hsize : size < Number.span)
include hitem hsize

/-- The comment of an instruction that was read can be stored. -/
theorem Instruction.storable_of_ofCbor? {instruction : Instruction}
    (h : ofCbor? item = some instruction) : Cbor.Storable instruction.comment := by
  obtain ⟨fields, hfields, h⟩ := Option.bind_eq_some_iff.mp h
  obtain ⟨op, _, h⟩ := Option.bind_eq_some_iff.mp h
  obtain ⟨arg, _, h⟩ := Option.bind_eq_some_iff.mp h
  obtain ⟨comment, hcomment, h⟩ := Option.bind_eq_some_iff.mp h
  cases h
  exact Cbor.storable_of_field? (Cbor.bounded_of_fields? hitem hfields) hsize hcomment

/-- A location that was read can be stored. -/
theorem Location.storable_of_ofCbor? {location : Location}
    (h : ofCbor? item = some location) : location.Storable := by
  obtain ⟨fields, hfields, h⟩ := Option.bind_eq_some_iff.mp h
  obtain ⟨file, hfile, h⟩ := Option.bind_eq_some_iff.mp h
  obtain ⟨line, hline, h⟩ := Option.bind_eq_some_iff.mp h
  obtain ⟨column, hcolumn, h⟩ := Option.bind_eq_some_iff.mp h
  cases h
  have hbounded := Cbor.bounded_of_fields? hitem hfields
  exact ⟨Cbor.storable_of_field? hbounded hsize hfile, Cbor.fits_of_field? hbounded hline,
    Cbor.fits_of_field? hbounded hcolumn⟩

/-- An image that was read can be written, and its lists are no longer than a reader accepts. -/
theorem Image.sound_of_ofCbor? {image : Image} (h : ofCbor? item = some image) :
    image.Sound ∧ image.Brief Cbor.maxEntries := by
  obtain ⟨fields, hfields, h⟩ := Option.bind_eq_some_iff.mp h
  obtain ⟨version, hversion, h⟩ := Option.bind_eq_some_iff.mp h
  obtain ⟨buildId, hbuildId, h⟩ := Option.bind_eq_some_iff.mp h
  obtain ⟨source, hsource, h⟩ := Option.bind_eq_some_iff.mp h
  obtain ⟨created, hcreated, h⟩ := Option.bind_eq_some_iff.mp h
  obtain ⟨code, hcode, h⟩ := Option.bind_eq_some_iff.mp h
  obtain ⟨locations, hlocations, h⟩ := Option.bind_eq_some_iff.mp h
  cases h
  have hbounded := Cbor.bounded_of_fields? hitem hfields
  obtain ⟨hprogram, hinstructions⟩ := Cbor.listOf_of_field? hbounded hcode
  obtain ⟨hlength, heach⟩ := Cbor.listOf_of_field? hbounded hlocations
  have hspan : Cbor.maxEntries < Number.span := by decide
  refine ⟨⟨Cbor.fits_of_field? hbounded hversion, Cbor.storable_of_field? hbounded hsize hbuildId,
    Cbor.storable_of_field? hbounded hsize hsource, Cbor.fits_of_field? hbounded hcreated,
    Nat.lt_of_le_of_lt hprogram hspan, fun instruction hmem => ?_, Nat.lt_of_le_of_lt hlength hspan,
    fun location hmem => ?_⟩, hprogram, hlength⟩
  · obtain ⟨found, hfound, hread⟩ := hinstructions instruction hmem
    exact Instruction.storable_of_ofCbor? hfound hsize hread
  · obtain ⟨found, hfound, hread⟩ := heach location hmem
    exact Location.storable_of_ofCbor? hfound hsize hread

end Read

end Tapestry

import Mathlib.Data.List.Perm.Subperm
import Tapestry.Proofs.ItemReading

/-!
# The codec of the program conforms

The reader takes an item from every encoding of it, whatever follows, if no list in it is longer than a
reader accepts and items do not nest too deep. It never takes another item from an encoding, so it
refuses the encodings of items with longer lists, since it never gives such an item.

An item that gives an image is read as that image.
-/

namespace Tapestry

/-- Items that are made and read one by one are read together. -/
theorem mapM_map_eq_some {α β γ : Type} {make : α → β} {read : β → Option γ} {result : α → γ}
    {items : List α} (h : ∀ item ∈ items, read (make item) = some (result item)) :
    (items.map make).mapM read = some (items.map result) := by
  induction items with
  | nil => rfl
  | cons item rest ih =>
    obtain ⟨hitem, hrest⟩ := List.forall_mem_cons.mp h
    rw [List.map_cons, List.mapM_cons, hitem, ih hrest]
    rfl

namespace Cbor

variable {major : Nat} {item : Cbor}

/-! ## Readers -/

/-- As many bytes as a text has are taken from its front. -/
theorem take?_append (contents rest : Text) :
    take? contents.length (contents ++ rest) = some (contents, rest) := by
  simp [take?]

section Rows

variable {α β : Type} {read : Reader α} {value : β → α} {bytes : β → Text} {parts : List β}

/-- Items that are read one by one are read together. -/
theorem many?_flatMap (h : ∀ part ∈ parts, ∀ rest, read (bytes part ++ rest) = some (value part, rest))
    (rest : Text) :
    many? read parts.length (parts.flatMap bytes ++ rest) = some (parts.map value, rest) := by
  induction parts with
  | nil => rfl
  | cons part parts ih =>
    obtain ⟨hpart, hparts⟩ := List.forall_mem_cons.mp h
    rw [List.length_cons, many?, List.flatMap_cons, List.append_assoc, hpart]
    simp only [Option.bind_eq_bind, Option.bind_some, ih hparts]
    rfl

/-- If nothing else can be read one by one, nothing else is read together. -/
theorem eq_of_many? (h : ∀ part ∈ parts, ∀ rest found left,
      read (bytes part ++ rest) = some (found, left) → found = value part ∧ left = rest)
    {rest left : Text} {items : List α}
    (hread : many? read parts.length (parts.flatMap bytes ++ rest) = some (items, left)) :
    items = parts.map value ∧ left = rest := by
  induction parts generalizing items with
  | nil =>
    cases hread
    exact ⟨rfl, rfl⟩
  | cons part parts ih =>
    obtain ⟨hpart, hparts⟩ := List.forall_mem_cons.mp h
    rw [List.length_cons, many?, List.flatMap_cons, List.append_assoc] at hread
    obtain ⟨⟨item, behind⟩, hitem, hread⟩ := Option.bind_eq_some_iff.mp hread
    obtain ⟨⟨others, last⟩, hothers, hread⟩ := Option.bind_eq_some_iff.mp hread
    cases hread
    obtain ⟨rfl, rfl⟩ := hpart _ _ _ hitem
    obtain ⟨rfl, rfl⟩ := ih hparts hothers
    exact ⟨rfl, rfl⟩

end Rows

/-! ## Heads -/

/-- Bytes start with a major type and an argument, as a reader takes them. -/
structure Announces (major n : Nat) (first : UInt8) (digits : Text) : Prop where
  major_eq : first.toNat / 32 = major
  info_lt : first.toNat % 32 < 28
  argument_eq : ∀ rest, argument? (first.toNat % 32) (digits ++ rest) = some (n, rest)

/-- The first byte of a head is not cut off. -/
theorem toNat_first {info : Nat} (hmajor : major < 8) (hinfo : info < 32) :
    (UInt8.ofNat (major * 32 + info)).toNat = major * 32 + info := by
  rw [UInt8.toNat_ofNat']
  omega

/-- The argument of a head is read, in whatever width it is given. -/
theorem Head.exists_announces {n : Nat} {bytes : Text} (h : Head major n bytes)
    (hmajor : major < 8) :
    ∃ first digits, bytes = first :: digits ∧ Announces major n first digits := by
  cases h with
  | short small =>
    have hfirst := toNat_first hmajor (show n < 32 by omega)
    refine ⟨_, [], rfl, by omega, by omega, fun rest => ?_⟩
    have hinfo : (major * 32 + n) % 32 = n := by omega
    rw [hfirst, hinfo, argument?, if_pos small]
    rfl
  | @wide info digits width =>
    have hargument (rest : Text) : argument? info (digits ++ rest) =
        (take? digits.length (digits ++ rest)).map fun found => (Number.ofBigEndian found.1, found.2) := by
      simp only [List.mem_cons, List.not_mem_nil, or_false, Prod.mk.injEq] at width
      rcases width with ⟨rfl, hlength⟩ | ⟨rfl, hlength⟩ | ⟨rfl, hlength⟩ | ⟨rfl, hlength⟩ <;>
        rw [hlength] <;> rfl
    have hlow : info < 28 := by
      simp only [List.mem_cons, List.not_mem_nil, or_false, Prod.mk.injEq] at width
      omega
    have hfirst := toNat_first hmajor (show info < 32 by omega)
    refine ⟨_, digits, rfl, by omega, by omega, fun rest => ?_⟩
    have hinfo : (major * 32 + info) % 32 = info := by omega
    rw [hfirst, hinfo, hargument, take?_append, Option.map_some]

/-- An argument is not the mark of an unstated length. -/
theorem Announces.info_ne {n : Nat} {first : UInt8} {digits : Text}
    (h : Announces major n first digits) : ¬ first.toNat % 32 = 31 := by
  have hinfo := h.info_lt
  omega

/-- The reader of the items inside an item, if there may be any. -/
def inside : Nat → Option (Reader Cbor)
  | 0 => none
  | levels + 1 => some (item? levels 0)

/-- Bytes that start with no tag are read as an item without one. -/
theorem item?_of_untagged {byte : UInt8} (hbyte : byte.toNat / 32 ≠ 6) (levels : Nat) (rest : Text) :
    item? levels 0 (byte :: rest) = untagged? (inside levels) (byte :: rest) := by
  have htags (limit : Nat) : tags? limit (byte :: rest) = some ([], byte :: rest) := by
    rw [tags?.eq_def]
    simp [hbyte]
  have hsame (result : Option (Cbor × Text)) :
      (result.bind fun found => some (found.1, found.2)) = result := by
    cases result <;> rfl
  cases levels with
  | zero =>
    rw [item?, htags]
    exact hsame _
  | succ levels =>
    rw [item?, htags]
    exact hsame _

/-! ## What is read from a head

Each kind of item is read from its head as far as the items inside it. -/

section Heads

variable {levels n : Nat} {bytes : Text}

/-- A number is read from its head. -/
theorem item?_of_unsigned (h : Head 0 n bytes) (rest : Text) :
    item? levels 0 (bytes ++ rest) = some (.unsigned n, rest) := by
  obtain ⟨first, digits, rfl, hannounces⟩ := h.exists_announces (by decide)
  rw [List.cons_append, item?_of_untagged (by rw [hannounces.major_eq]; decide)]
  simp only [untagged?, hannounces.major_eq, hannounces.argument_eq]
  rfl

/-- A negative number is read from its head. -/
theorem item?_of_negative (h : Head 1 n bytes) (rest : Text) :
    item? levels 0 (bytes ++ rest) = some (.negative n, rest) := by
  obtain ⟨first, digits, rfl, hannounces⟩ := h.exists_announces (by decide)
  rw [List.cons_append, item?_of_untagged (by rw [hannounces.major_eq]; decide)]
  simp only [untagged?, hannounces.major_eq, hannounces.argument_eq]
  rfl

/-- A text is read from its head and its bytes. -/
theorem item?_of_string {t : Text} (h : Head 3 t.length bytes) (rest : Text) :
    item? levels 0 (bytes ++ t ++ rest) = some (.string t, rest) := by
  obtain ⟨first, digits, rfl, hannounces⟩ := h.exists_announces (by decide)
  rw [List.append_assoc, List.cons_append,
    item?_of_untagged (by rw [hannounces.major_eq]; decide)]
  simp only [untagged?, hannounces.major_eq, chunks?, if_neg hannounces.info_ne, hannounces.argument_eq]
  simp only [Option.bind_eq_bind, Option.bind_some, take?_append]
  rfl

/-- Null is read from its byte. -/
theorem item?_of_null (rest : Text) : item? levels 0 (0xF6 :: rest) = some (.null, rest) := by
  rw [item?_of_untagged (by decide)]
  rfl

/-- A list is read if there may be items inside, its length is accepted, and its items are read. -/
theorem item?_of_array (h : Head 4 n bytes) (rest : Text) :
    item? levels 0 (bytes ++ rest) = (inside levels).bind fun one =>
      (if maxEntries < n then none else many? one n rest).map fun found =>
        (.array found.1, found.2) := by
  obtain ⟨first, digits, rfl, hannounces⟩ := h.exists_announces (by decide)
  rw [List.cons_append, item?_of_untagged (by rw [hannounces.major_eq]; decide)]
  simp only [untagged?, hannounces.major_eq, entries?, if_neg hannounces.info_ne,
    hannounces.argument_eq, Option.bind_eq_bind, Option.bind_some]
  congr 1
  funext one
  split <;> [rfl; cases many? one n rest <;> rfl]

/-- A map is read if there may be items inside, its length is accepted, and its entries are read. -/
theorem item?_of_map (h : Head 5 n bytes) (rest : Text) :
    item? levels 0 (bytes ++ rest) = (inside levels).bind fun one =>
      (if maxEntries < n then none else many? (pair? one) n rest).map fun found =>
        (.map found.1, found.2) := by
  obtain ⟨first, digits, rfl, hannounces⟩ := h.exists_announces (by decide)
  rw [List.cons_append, item?_of_untagged (by rw [hannounces.major_eq]; decide)]
  simp only [untagged?, hannounces.major_eq, entries?, if_neg hannounces.info_ne,
    hannounces.argument_eq, Option.bind_eq_bind, Option.bind_some]
  congr 1
  funext one
  split <;> [rfl; cases many? (pair? one) n rest <;> rfl]

end Heads

/-! ## Items that are read -/

/-- Items nest no deeper than some levels, and no map has more entries than a reader accepts. -/
inductive Shallow : Nat → Cbor → Prop where
  | unsigned {levels} (n) : Shallow levels (.unsigned n)
  | negative {levels} (n) : Shallow levels (.negative n)
  | string {levels} (t : Text) : Shallow levels (.string t)
  | null {levels} : Shallow levels .null
  | array {levels} {items : List Cbor} (each : ∀ item ∈ items, Shallow levels item) :
    Shallow (levels + 1) (.array items)
  | map {levels} {entries : List (Cbor × Cbor)} (few : entries.length ≤ maxEntries)
      (keys : ∀ entry ∈ entries, Shallow levels (Prod.fst entry))
      (values : ∀ entry ∈ entries, Shallow levels (Prod.snd entry)) : Shallow (levels + 1) (.map entries)

/-- Two items are read as an entry. -/
theorem pair?_append {one : Reader Cbor} {key value : Cbor} {first second : Text}
    (hkey : ∀ rest, one (first ++ rest) = some (key, rest))
    (hvalue : ∀ rest, one (second ++ rest) = some (value, rest)) (rest : Text) :
    pair? one (first ++ second ++ rest) = some ((key, value), rest) := by
  simp only [pair?, List.append_assoc, hkey, hvalue, Option.bind_eq_bind, Option.bind_some]
  rfl

/-- An item is read from every encoding of it that a reader accepts. -/
theorem Encodes.item?_eq {bytes : Text} (h : Encodes item bytes) {levels : Nat}
    (hshallow : Shallow levels item) (hwithin : Within maxEntries item) (rest : Text) :
    item? levels 0 (bytes ++ rest) = some (item, rest) := by
  induction h generalizing levels rest with
  | unsigned head => exact item?_of_unsigned head rest
  | negative head => exact item?_of_negative head rest
  | string head => exact item?_of_string head rest
  | null => exact item?_of_null rest
  | @array parts bytes head _ ih =>
    cases hshallow with
    | @array levels _ shallow =>
      cases hwithin with
      | array few within =>
        rw [List.length_map] at few
        have hparts : ∀ part ∈ parts, ∀ rest, item? levels 0 (part.2 ++ rest) = some (part.1, rest) :=
          fun part hpart => ih part hpart (shallow _ (List.mem_map_of_mem hpart))
            (within _ (List.mem_map_of_mem hpart))
        rw [List.append_assoc, item?_of_array head]
        simp only [inside, Option.bind_some, if_neg (Nat.not_lt.mpr few), many?_flatMap hparts,
          Option.map_some]
  | @map parts bytes head _ _ ihKeys ihValues =>
    cases hshallow with
    | @map levels _ few shallowKeys shallowValues =>
      cases hwithin with
      | map withinKeys withinValues =>
        rw [List.length_map] at few
        have hentry {part : (Cbor × Text) × Cbor × Text} (hpart : part ∈ parts) :
            (part.1.1, part.2.1) ∈ parts.map fun part => (part.1.1, part.2.1) :=
          List.mem_map_of_mem hpart
        have hparts : ∀ part ∈ parts, ∀ rest,
            pair? (item? levels 0) (part.1.2 ++ part.2.2 ++ rest) = some ((part.1.1, part.2.1), rest) :=
          fun part hpart => pair?_append
            (ihKeys part hpart (shallowKeys _ (hentry hpart)) (withinKeys _ (hentry hpart)))
            (ihValues part hpart (shallowValues _ (hentry hpart)) (withinValues _ (hentry hpart)))
        rw [List.append_assoc, item?_of_map head]
        simp only [inside, Option.bind_some, if_neg (Nat.not_lt.mpr few),
          many?_flatMap hparts, Option.map_some]

/-- No other item is read from an encoding. -/
theorem Encodes.eq_of_item? {found : Cbor} {bytes rest left : Text} (h : Encodes item bytes)
    {levels : Nat} (hread : item? levels 0 (bytes ++ rest) = some (found, left)) :
    found = item ∧ left = rest := by
  induction h generalizing levels rest found left with
  | unsigned head =>
    rw [item?_of_unsigned head] at hread
    cases hread
    exact ⟨rfl, rfl⟩
  | negative head =>
    rw [item?_of_negative head] at hread
    cases hread
    exact ⟨rfl, rfl⟩
  | string head =>
    rw [item?_of_string head] at hread
    cases hread
    exact ⟨rfl, rfl⟩
  | null =>
    obtain ⟨rfl, rfl⟩ := Prod.mk.inj (Option.some.inj ((item?_of_null rest).symm.trans hread))
    exact ⟨rfl, rfl⟩
  | @array parts bytes head _ ih =>
    rw [List.append_assoc, item?_of_array head] at hread
    obtain ⟨one, hone, hread⟩ := Option.bind_eq_some_iff.mp hread
    obtain ⟨⟨items, behind⟩, hitems, heq⟩ := Option.map_eq_some_iff.mp hread
    cases heq
    split at hitems
    case isTrue => cases hitems
    case isFalse =>
      cases levels with
      | zero => cases hone
      | succ levels =>
        cases hone
        obtain ⟨rfl, rfl⟩ := eq_of_many? (fun part hpart _ _ _ hpart' => ih part hpart hpart') hitems
        exact ⟨rfl, rfl⟩
  | @map parts bytes head _ _ ihKeys ihValues =>
    rw [List.append_assoc, item?_of_map head] at hread
    obtain ⟨one, hone, hread⟩ := Option.bind_eq_some_iff.mp hread
    obtain ⟨⟨items, behind⟩, hitems, heq⟩ := Option.map_eq_some_iff.mp hread
    cases heq
    split at hitems
    case isTrue => cases hitems
    case isFalse =>
      cases levels with
      | zero => cases hone
      | succ levels =>
        cases hone
        have hparts : ∀ part ∈ parts, ∀ rest found left,
            pair? (item? levels 0) (part.1.2 ++ part.2.2 ++ rest) = some (found, left) →
              found = (part.1.1, part.2.1) ∧ left = rest := by
          intro part hpart rest found left hpair
          rw [List.append_assoc] at hpair
          obtain ⟨⟨key, middle⟩, hkey, hpair⟩ := Option.bind_eq_some_iff.mp hpair
          obtain ⟨⟨value, last⟩, hvalue, hpair⟩ := Option.bind_eq_some_iff.mp hpair
          cases hpair
          obtain ⟨rfl, rfl⟩ := ihKeys part hpart hkey
          obtain ⟨rfl, rfl⟩ := ihValues part hpart hvalue
          exact ⟨rfl, rfl⟩
        obtain ⟨rfl, rfl⟩ := eq_of_many? hparts hitems
        exact ⟨rfl, rfl⟩

/-- An item whose lists are bounded is within the limit of the reader. -/
theorem Encodes.within_of_bounded {bytes : Text} (h : Encodes item bytes) {size : Nat}
    (hbounded : Bounded size item) : Within maxEntries item := by
  induction h with
  | unsigned _ => exact .unsigned _
  | negative _ => exact .negative _
  | string _ => exact .string _
  | null => exact .null
  | array _ _ ih =>
    cases hbounded with
    | array few bounded =>
      refine .array few fun item hitem => ?_
      obtain ⟨part, hpart, rfl⟩ := List.mem_map.mp hitem
      exact ih part hpart (bounded _ hitem)
  | map _ _ _ ihKeys ihValues =>
    cases hbounded with
    | map boundedKeys boundedValues =>
      refine .map (fun entry hentry => ?_) fun entry hentry => ?_
      · obtain ⟨part, hpart, rfl⟩ := List.mem_map.mp hentry
        exact ihKeys part hpart (boundedKeys _ hentry)
      · obtain ⟨part, hpart, rfl⟩ := List.mem_map.mp hentry
        exact ihValues part hpart (boundedValues _ hentry)

/-- Bytes that encode an item alone are read as that item, if a reader accepts it. -/
theorem Encodes.read?_eq {bytes : Text} (h : Encodes item bytes) (hshallow : Shallow maxLevels item)
    (hwithin : Within maxEntries item) : read? bytes = some item := by
  have hitem := h.item?_eq hshallow hwithin []
  rw [List.append_nil] at hitem
  rw [read?, hitem]

/-- Only items that are within the limit are read. -/
theorem Encodes.within_of_read? {found : Cbor} {bytes : Text} (h : Encodes item bytes)
    (hread : read? bytes = some found) : Within maxEntries item := by
  refine @Encodes.within_of_bounded item bytes h bytes.length ?_
  have hbounded := bounded_of_read? hread
  unfold read? at hread
  split at hread
  case h_1 other hitem =>
    cases hread
    rw [← List.append_nil bytes] at hitem
    obtain ⟨rfl, _⟩ := h.eq_of_item? hitem
    exact hbounded
  case h_2 => cases hread

/-! ## What is read from entries -/

section Entries

variable {keys : List Nat} {entries : List (Cbor × Cbor)} {key : Nat}

/-- A key leads to one item only. -/
theorem KeyedBy.eq_of_mem (h : KeyedBy keys entries) {name first second : Cbor}
    (hfirst : (name, first) ∈ entries) (hsecond : (name, second) ∈ entries) : first = second :=
  congrArg Prod.snd (List.inj_on_of_nodup_map h.distinct hfirst hsecond rfl)

/-- There are no more entries than keys. -/
theorem KeyedBy.length_le (h : KeyedBy keys entries) : entries.length ≤ keys.length := by
  have hsubset : entries.map Prod.fst ⊆ keys.map Cbor.unsigned := by
    intro name hname
    obtain ⟨entry, hentry, rfl⟩ := List.mem_map.mp hname
    obtain ⟨key, hkey, hname⟩ := h.known entry hentry
    exact List.mem_map.mpr ⟨key, hkey, hname.symm⟩
  have hlength := (List.subperm_of_subset h.distinct hsubset).length_le
  rwa [List.length_map, List.length_map] at hlength

section Field

variable {α : Type} {gives : Cbor → α → Prop} {zero value : α}

/-- The item that an entry has gives what the field gives, or it is null. -/
theorem FieldGives.given (h : FieldGives gives zero entries key value)
    (hkeyed : KeyedBy keys entries) (hmem : (.unsigned key, item) ∈ entries) :
    gives item value ∨ item = .null ∧ value = zero := by
  cases h with
  | present mem given => exact .inl (hkeyed.eq_of_mem mem hmem ▸ given)
  | null mem => exact .inr ⟨hkeyed.eq_of_mem hmem mem, rfl⟩
  | absent missing => exact absurd hmem (missing item)

/-- A field without an entry gives zero. -/
theorem FieldGives.eq_zero (h : FieldGives gives zero entries key value)
    (hmissing : ∀ item, (.unsigned key, item) ∉ entries) : value = zero := by
  cases h with
  | present mem _ => exact absurd mem (hmissing _)
  | null mem => exact absurd mem (hmissing _)
  | absent _ => rfl

/-- The item that an entry has is shallow if all items are that give something. -/
theorem FieldGives.shallow {levels : Nat} (h : FieldGives gives zero entries key value)
    (hgives : ∀ {item value}, gives item value → Shallow levels item) (hkeyed : KeyedBy keys entries)
    {entry : Cbor × Cbor} (hentry : entry ∈ entries) (hkey : entry.1 = .unsigned key) :
    Shallow levels entry.2 := by
  obtain ⟨name, item⟩ := entry
  obtain rfl : name = .unsigned key := hkey
  rcases h.given hkeyed hentry with hgiven | ⟨hnull, -⟩
  · exact hgives hgiven
  · exact hnull ▸ .null

end Field

/-- A map is shallow if its entries are. -/
theorem KeyedBy.shallow {levels : Nat} (h : KeyedBy keys entries) (hfew : keys.length ≤ maxEntries)
    (hvalues : ∀ key ∈ keys, ∀ entry ∈ entries, entry.1 = .unsigned key → Shallow levels entry.2) :
    Shallow (levels + 1) (.map entries) := by
  refine .map (Nat.le_trans h.length_le hfew) (fun entry hentry => ?_) fun entry hentry => ?_
  · obtain ⟨key, _, hname⟩ := h.known entry hentry
    exact hname ▸ .unsigned key
  · obtain ⟨key, hkey, hname⟩ := h.known entry hentry
    exact hvalues key hkey entry hentry hname

/-- The text of a key that is a number. -/
def label : Cbor → Text
  | unsigned n => Number.nat n
  | _ => []

/-- Entries by the texts of their keys. -/
def named (entries : List (Cbor × Cbor)) : List (Text × Cbor) :=
  entries.map fun entry => (label entry.1, entry.2)

/-- The entries of a map with numbers for keys, as they are read. -/
theorem KeyedBy.fields?_eq (h : KeyedBy keys entries) : fields? (.map entries) = some (named entries) := by
  have hread : entries.mapM (fun entry : Cbor × Cbor => (key? entry.1).map fun name => (name, entry.2)) =
      some (named entries) := by
    have hentries := @mapM_map_eq_some _ _ _ id
      (fun entry : Cbor × Cbor => (key? entry.1).map fun name => (name, entry.2))
      (fun entry => (label entry.1, entry.2)) entries fun entry hentry => by
        obtain ⟨key, -, hname⟩ := h.known entry hentry
        rw [id, hname]
        rfl
    rwa [List.map_id] at hentries
  exact hread

/-- Numbers of one digit are told apart by their texts. -/
theorem mem_of_mem_named (h : KeyedBy keys entries) (hsmall : ∀ key ∈ keys, key < 10)
    (hkey : key < 10) (hmem : (Number.nat key, item) ∈ named entries) :
    (.unsigned key, item) ∈ entries := by
  have hdigits : ∀ a < 10, ∀ b < 10, Number.nat a = Number.nat b → a = b := by decide
  obtain ⟨⟨name, found⟩, hentry, hsame⟩ := List.mem_map.mp hmem
  obtain ⟨other, hother, hname⟩ := h.known _ hentry
  obtain rfl : name = .unsigned other := hname
  obtain ⟨hlabel, rfl⟩ := Prod.mk.inj hsame
  obtain rfl := hdigits other (hsmall other hother) key hkey hlabel
  exact hentry

/-- A field is read as what its entries give. -/
theorem FieldGives.field?_eq {α : Type} {gives : Cbor → α → Prop} {read : Cbor → Option α}
    {zero value : α} (h : FieldGives gives zero entries key value)
    (hread : ∀ {item value}, gives item value →
      item.untag? = some item ∧ item.isAbsent = false ∧ read item = some value)
    (hkeyed : KeyedBy keys entries) (hsmall : ∀ key ∈ keys, key < 10) (hkey : key < 10) :
    field? read zero (named entries) key = some value := by
  rw [field?]
  cases hfound : (named entries).lookup (Number.nat key) with
  | none =>
    have hmissing (item : Cbor) : (.unsigned key, item) ∉ entries := fun hmem => by
      have hnone := List.lookup_eq_none_iff.mp hfound _ (List.mem_map_of_mem hmem)
      simp [label] at hnone
    rw [h.eq_zero hmissing]
  | some item =>
    obtain ⟨front, back, hsplit, -⟩ := List.lookup_eq_some_iff.mp hfound
    have hmem := mem_of_mem_named hkeyed hsmall hkey (hsplit ▸ List.mem_append_cons_self)
    dsimp only
    rcases h.given hkeyed hmem with hgiven | ⟨rfl, rfl⟩
    · obtain ⟨huntag, habsent, hvalue⟩ := hread hgiven
      rw [huntag, Option.bind_eq_bind, Option.bind_some, habsent, if_neg Bool.false_ne_true, hvalue]
    · rfl

end Entries

/-! ## What is read from items that give something -/

section Given

variable {item : Cbor} {levels : Nat}

/-- An integer is read back from its item. -/
theorem int?_int (n : Int) : (int n).int? = some n := by
  cases n with
  | ofNat n => rfl
  | negSucc n =>
    rw [int, int?, Int.negSucc_eq]
    congr 1
    omega

/-- An integer is read from an item that gives it. -/
theorem GivesInt.word?_eq {n : Int} (h : GivesInt item n) :
    item.untag? = some item ∧ item.isAbsent = false ∧ word? item = some n := by
  cases h with
  | int fits =>
    refine ⟨by cases n <;> rfl, by cases n <;> rfl, ?_⟩
    rw [word?, within?, int?_int]
    exact if_pos (Number.fits_iff.mp fits)

/-- An item that gives an integer is shallow. -/
theorem GivesInt.shallow {n : Int} (h : GivesInt item n) : Shallow levels item := by
  cases h with
  | int _ =>
    cases n with
    | ofNat n => exact .unsigned n
    | negSucc n => exact .negative n

/-- A byte is read from an item that gives it. -/
theorem GivesByte.within?_eq {b : UInt8} (h : GivesByte item b) :
    item.untag? = some item ∧ item.isAbsent = false ∧ within? 0 255 item = some (b.toNat : Int) := by
  cases h with
  | byte b =>
    have hbyte := b.toNat_lt
    exact ⟨rfl, rfl, if_pos (show (0 : Int) ≤ b.toNat ∧ (b.toNat : Int) ≤ 255 by omega)⟩

/-- A text is read from an item that gives it. -/
theorem GivesText.text?_eq {t : Text} (h : GivesText item t) :
    item.untag? = some item ∧ item.isAbsent = false ∧ text? item = some t := by
  cases h with
  | text valid => exact ⟨rfl, rfl, by simp [string, text?, valid]⟩

/-- An item that gives a text is shallow. -/
theorem GivesText.shallow {t : Text} (h : GivesText item t) : Shallow levels item := by
  cases h with
  | text _ => exact .string _

/-- A list is read from an item that gives it. -/
theorem GivesList.listOf?_eq {α : Type} {gives : Cbor → α → Prop} {read : Cbor → Option α}
    {items : Option (List α)} (h : GivesList gives item items)
    (hread : ∀ {item value}, gives item value → read item = some value) :
    item.untag? = some item ∧ item.isAbsent = false ∧ Image.listOf? read item = some items := by
  cases h with
  | list each =>
    refine ⟨rfl, rfl, ?_⟩
    simp only [Image.listOf?, array?, Option.bind_eq_bind, Option.bind_some,
      mapM_map_eq_some fun pair hpair => hread (each pair hpair)]
    rfl

/-- An item that gives a list is shallow if the items in it are. -/
theorem GivesList.shallow {α : Type} {gives : Cbor → α → Prop} {items : Option (List α)}
    (h : GivesList gives item items)
    (hgives : ∀ {item value}, gives item value → Shallow levels item) :
    Shallow (levels + 1) item := by
  cases h with
  | list each =>
    refine .array fun inner hinner => ?_
    obtain ⟨pair, hpair, rfl⟩ := List.mem_map.mp hinner
    exact hgives (each pair hpair)

end Given

end Cbor

open Cbor

/-! ## Images -/

/-- An operation is read back from its byte. -/
theorem Opcode.ofByte_toByte (op : Opcode) : ofByte op.toByte = op := by
  cases op with
  | undefined rest =>
    have hbyte : (UInt8.ofNat (rest.val + 7)).toNat = rest.val + 7 := by
      rw [UInt8.toNat_ofNat']
      omega
    rw [toByte, ofByte, hbyte]
    simp
  | _ => rfl

namespace Instruction

variable {item : Cbor} {instruction : Instruction}

/-- An instruction is read from an item that gives it. -/
theorem GivenBy.ofCbor?_eq (h : GivenBy item instruction) : ofCbor? item = some instruction := by
  cases h with
  | @map entries _ keys op arg comment =>
    have hsmall : ∀ key ∈ [1, 2, 3], key < 10 := by decide
    have hop : field? (within? 0 255) 0 (named entries) 1 = some (instruction.op.toByte.toNat : Int) := by
      -- The byte of the operation is read as a number.
      have hnumber : FieldGives (fun item n => ∃ b : UInt8, n = (b.toNat : Int) ∧ GivesByte item b) 0
          entries 1 (instruction.op.toByte.toNat : Int) := by
        generalize instruction.op.toByte = byte at op
        cases op with
        | present mem given => exact .present mem ⟨_, rfl, given⟩
        | null mem => exact .null mem
        | absent missing => exact .absent missing
      refine hnumber.field?_eq (fun hgiven => ?_) keys hsmall (by decide)
      obtain ⟨b, rfl, hbyte⟩ := hgiven
      exact hbyte.within?_eq
    have harg := arg.field?_eq GivesInt.word?_eq keys hsmall (by decide)
    have hcomment := comment.field?_eq GivesText.text?_eq keys hsmall (by decide)
    rw [ofCbor?, keys.fields?_eq]
    simp only [Option.bind_eq_bind, Option.bind_some, hop, harg, hcomment]
    simp [Opcode.ofByte_toByte]

/-- An item that gives an instruction is shallow. -/
theorem GivenBy.shallow {levels : Nat} (h : GivenBy item instruction) : Shallow (levels + 1) item := by
  cases h with
  | map keys op arg comment =>
    refine keys.shallow (by decide) ?_
    simp only [List.forall_mem_cons]
    exact ⟨fun entry hentry hkey => op.shallow (fun h => by cases h; exact .unsigned _) keys hentry hkey,
      fun entry hentry hkey => arg.shallow GivesInt.shallow keys hentry hkey,
      fun entry hentry hkey => comment.shallow GivesText.shallow keys hentry hkey,
      fun _ hmem => absurd hmem List.not_mem_nil⟩

end Instruction

namespace Location

variable {item : Cbor} {location : Location}

/-- A location is read from an item that gives it. -/
theorem GivenBy.ofCbor?_eq (h : GivenBy item location) : ofCbor? item = some location := by
  cases h with
  | map keys file line column =>
    have hsmall : ∀ key ∈ [1, 2, 3], key < 10 := by decide
    have hfile := file.field?_eq GivesText.text?_eq keys hsmall (by decide)
    have hline := line.field?_eq GivesInt.word?_eq keys hsmall (by decide)
    have hcolumn := column.field?_eq GivesInt.word?_eq keys hsmall (by decide)
    rw [ofCbor?, keys.fields?_eq]
    simp only [Option.bind_eq_bind, Option.bind_some, hfile, hline, hcolumn]
    rfl

/-- An item that gives a location is shallow. -/
theorem GivenBy.shallow {levels : Nat} (h : GivenBy item location) : Shallow (levels + 1) item := by
  cases h with
  | map keys file line column =>
    refine keys.shallow (by decide) ?_
    simp only [List.forall_mem_cons]
    exact ⟨fun entry hentry hkey => file.shallow GivesText.shallow keys hentry hkey,
      fun entry hentry hkey => line.shallow GivesInt.shallow keys hentry hkey,
      fun entry hentry hkey => column.shallow GivesInt.shallow keys hentry hkey,
      fun _ hmem => absurd hmem List.not_mem_nil⟩

end Location

namespace Image

variable {item : Cbor} {image : Image}

/-- An image is read from an item that gives it. -/
theorem GivenBy.ofCbor?_eq (h : GivenBy item image) : ofCbor? item = some image := by
  cases h with
  | map keys version buildId source created code locations =>
    have hsmall : ∀ key ∈ [1, 2, 3, 4, 5, 6], key < 10 := by decide
    have hversion := version.field?_eq GivesInt.word?_eq keys hsmall (by decide)
    have hbuildId := buildId.field?_eq GivesText.text?_eq keys hsmall (by decide)
    have hsource := source.field?_eq GivesText.text?_eq keys hsmall (by decide)
    have hcreated := created.field?_eq GivesInt.word?_eq keys hsmall (by decide)
    have hcode := code.field?_eq (fun h => h.listOf?_eq Instruction.GivenBy.ofCbor?_eq) keys hsmall
      (by decide)
    have hlocations := locations.field?_eq (fun h => h.listOf?_eq Location.GivenBy.ofCbor?_eq) keys hsmall
      (by decide)
    rw [ofCbor?, keys.fields?_eq]
    simp only [Option.bind_eq_bind, Option.bind_some, hversion, hbuildId, hsource, hcreated, hcode,
      hlocations]
    rfl

/-- An item that gives an image is shallow. -/
theorem GivenBy.shallow {levels : Nat} (h : GivenBy item image) : Shallow (levels + 3) item := by
  cases h with
  | map keys version buildId source created code locations =>
    refine keys.shallow (by decide) ?_
    simp only [List.forall_mem_cons]
    exact ⟨fun entry hentry hkey => version.shallow GivesInt.shallow keys hentry hkey,
      fun entry hentry hkey => buildId.shallow GivesText.shallow keys hentry hkey,
      fun entry hentry hkey => source.shallow GivesText.shallow keys hentry hkey,
      fun entry hentry hkey => created.shallow GivesInt.shallow keys hentry hkey,
      fun entry hentry hkey =>
        code.shallow (fun h => h.shallow Instruction.GivenBy.shallow) keys hentry hkey,
      fun entry hentry hkey =>
        locations.shallow (fun h => h.shallow Location.GivenBy.shallow) keys hentry hkey,
      fun _ hmem => absurd hmem List.not_mem_nil⟩

/-- The codec of the program conforms to the format. -/
theorem codec_conforms : Codec.Conforms maxEntries where
  marshal_eq _ _ := rfl
  unmarshal_eq {item bytes image} hencodes hwithin hgiven := by
    have hread := hencodes.read?_eq (show Shallow (29 + 3) item from hgiven.shallow) hwithin
    show ofBytes bytes = _
    rw [ofBytes, hread, Option.bind_some, hgiven.ofCbor?_eq]
  refuses {item bytes} hencodes hlong := by
    refine ⟨_, show ofBytes bytes = .error "cbor: malformed data" from ?_⟩
    rw [ofBytes]
    cases hread : read? bytes with
    | none => rfl
    | some found => exact absurd (hencodes.within_of_read? hread) hlong
  accepts {bytes image} hsize hread := by
    have hread : ofBytes bytes = .ok image := hread
    rw [ofBytes] at hread
    split at hread
    case h_1 => cases hread
    case h_2 found hfound =>
      cases hread
      obtain ⟨item, hitem, hgiven⟩ := Option.bind_eq_some_iff.mp hfound
      exact sound_of_ofCbor? (bounded_of_read? hitem) hsize hgiven

end Image

end Tapestry

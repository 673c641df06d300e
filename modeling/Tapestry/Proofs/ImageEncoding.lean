import Mathlib.Data.List.Nodup
import Mathlib.Tactic.Ring
import Tapestry.Image.Layout

/-!
# What a codec for images is taken to do

The rules of the storage format, apart from any codec: which bytes encode a data item, with arguments
of any width, and which items give an instruction, a location or an image. An entry that is missing or
null gives zero, an empty text or no list.

A codec conforms to the format if it writes the layout of an image in the shortest form, and reads an
image from every encoding of an item that gives it, as long as no list in the item is longer than the
codec accepts. It refuses items with longer lists, although it writes them.

The layout of an image gives the image, and the shortest form of an item encodes it, at all widths of
arguments.
-/

namespace Tapestry

/-! ## Numbers in bytes -/

namespace Number

/-- One more byte stands in front. -/
theorem bigEndian_succ (width n : Nat) :
    bigEndian (width + 1) n = UInt8.ofNat (n >>> (8 * width)) :: bigEndian width n := by
  rw [bigEndian, List.range_succ_eq_map, List.map_cons, List.map_map]
  refine congrArg₂ List.cons (by simp) (List.map_congr_left fun i _ => ?_)
  simp only [Function.comp_apply]
  congr 3
  omega

/-- A number is given as many bytes as asked for. -/
@[simp]
theorem length_bigEndian (width n : Nat) : (bigEndian width n).length = width := by
  simp [bigEndian]

/-- Bytes are read behind those read before. -/
theorem foldl_bigEndian (width n before : Nat) :
    (bigEndian width n).foldl (fun n b => n * 256 + b.toNat) before =
      before * 256 ^ width + n % 256 ^ width := by
  induction width generalizing before with
  | zero => simp [bigEndian, Nat.mod_one]
  | succ width ih =>
    have hbyte : (UInt8.ofNat (n >>> (8 * width))).toNat = n / 256 ^ width % 256 := by
      rw [UInt8.toNat_ofNat', Nat.shiftRight_eq_div_pow, Nat.pow_mul]
    rw [bigEndian_succ, List.foldl_cons, ih, hbyte, Nat.mod_pow_succ, pow_succ]
    ring

/-- A number is read back from enough bytes. -/
theorem ofBigEndian_bigEndian {width n : Nat} (h : n < 256 ^ width) :
    ofBigEndian (bigEndian width n) = n := by
  rw [ofBigEndian, foldl_bigEndian, Nat.zero_mul, Nat.zero_add, Nat.mod_eq_of_lt h]

/-- The bounds of a signed word. -/
theorem fits_iff {n : Int} :
    fits n = true ↔ -0x8000000000000000 ≤ n ∧ n ≤ 0x7fffffffffffffff := by
  have hbounds : fits n = true ↔ least ≤ n ∧ n ≤ greatest := by simp [fits]
  exact hbounds

/-- A word fits a word. -/
theorem fits_toInt (n : Int64) : fits n.toInt = true := by
  have hlow := n.le_toInt
  have hhigh := n.toInt_lt
  rw [fits_iff]
  omega

end Number

/-! ## Encodings of items -/

namespace Cbor

/-- A head gives a major type and an argument, which is in the first byte itself or in the one, two,
four or eight bytes behind it. -/
inductive Head (major : Nat) : Nat → Text → Prop where
  | short {n} (small : n < 24) : Head major n [UInt8.ofNat (major * 32 + n)]
  | wide {info digits} (width : (info, digits.length) ∈ [(24, 1), (25, 2), (26, 4), (27, 8)]) :
    Head major (Number.ofBigEndian digits) (UInt8.ofNat (major * 32 + info) :: digits)

/-- Bytes encode an item with stated lengths. -/
inductive Encodes : Cbor → Text → Prop where
  | unsigned {n bytes} (head : Head 0 n bytes) : Encodes (.unsigned n) bytes
  | negative {n bytes} (head : Head 1 n bytes) : Encodes (.negative n) bytes
  | string {t : Text} {bytes} (head : Head 3 t.length bytes) : Encodes (.string t) (bytes ++ t)
  | null : Encodes .null [0xF6]
  | array {parts : List (Cbor × Text)} {bytes} (head : Head 4 parts.length bytes)
      (each : ∀ part ∈ parts, Encodes part.1 part.2) :
    Encodes (.array (parts.map Prod.fst)) (bytes ++ parts.flatMap Prod.snd)
  | map {parts : List ((Cbor × Text) × Cbor × Text)} {bytes} (head : Head 5 parts.length bytes)
      (keys : ∀ part ∈ parts, Encodes part.1.1 part.1.2)
      (values : ∀ part ∈ parts, Encodes part.2.1 part.2.2) :
    Encodes (.map (parts.map fun part => (part.1.1, part.2.1)))
      (bytes ++ parts.flatMap fun part => part.1.2 ++ part.2.2)

/-- No list in an item has more elements than a limit. -/
inductive Within (limit : Nat) : Cbor → Prop where
  | unsigned (n) : Within limit (.unsigned n)
  | negative (n) : Within limit (.negative n)
  | string (t : Text) : Within limit (.string t)
  | null : Within limit .null
  | array {items : List Cbor} (few : items.length ≤ limit) (each : ∀ item ∈ items, Within limit item) :
    Within limit (.array items)
  | map {entries : List (Cbor × Cbor)} (keys : ∀ entry ∈ entries, Within limit (Prod.fst entry))
      (values : ∀ entry ∈ entries, Within limit (Prod.snd entry)) : Within limit (.map entries)

/-! ## What items give -/

/-- An item gives an integer that fits a signed word. -/
inductive GivesInt : Cbor → Int → Prop where
  | int {n} (fits : Number.fits n = true) : GivesInt (.int n) n

/-- An item gives a byte. -/
inductive GivesByte : Cbor → UInt8 → Prop where
  | byte (b) : GivesByte (.unsigned b.toNat) b

/-- An item gives a well-formed text. -/
inductive GivesText : Cbor → Text → Prop where
  | text {t : Text} (valid : Utf8.valid t = true) : GivesText (.string t) t

/-- An item gives a list, each element what it gives itself. -/
inductive GivesList {α : Type} (gives : Cbor → α → Prop) : Cbor → Option (List α) → Prop where
  | list {pairs : List (Cbor × α)} (each : ∀ pair ∈ pairs, gives pair.1 pair.2) :
    GivesList gives (.array (pairs.map Prod.fst)) (some (pairs.map Prod.snd))

/-- What the entries of a map give for the field with a key: what the entry gives, or zero if there is
none or it is null. -/
inductive FieldGives {α : Type} (gives : Cbor → α → Prop) (zero : α) (entries : List (Cbor × Cbor))
    (key : Nat) : α → Prop where
  | present {item value} (mem : (.unsigned key, item) ∈ entries) (given : gives item value) :
    FieldGives gives zero entries key value
  | null (mem : (.unsigned key, .null) ∈ entries) : FieldGives gives zero entries key zero
  | absent (missing : ∀ item, (.unsigned key, item) ∉ entries) : FieldGives gives zero entries key zero

/-- The keys of entries are different ones of those listed. -/
structure KeyedBy (keys : List Nat) (entries : List (Cbor × Cbor)) : Prop where
  distinct : (entries.map Prod.fst).Nodup
  known : ∀ entry ∈ entries, ∃ key ∈ keys, entry.1 = .unsigned key

end Cbor

open Cbor

/-- An item gives an instruction. -/
inductive Instruction.GivenBy : Cbor → Instruction → Prop where
  | map {entries} {instruction : Instruction} (keys : KeyedBy [1, 2, 3] entries)
      (op : FieldGives GivesByte 0 entries 1 instruction.op.toByte)
      (arg : FieldGives GivesInt 0 entries 2 instruction.arg.toInt)
      (comment : FieldGives GivesText [] entries 3 instruction.comment) :
    GivenBy (.map entries) instruction

/-- An item gives a location. -/
inductive Location.GivenBy : Cbor → Location → Prop where
  | map {entries} {location : Location} (keys : KeyedBy [1, 2, 3] entries)
      (file : FieldGives GivesText [] entries 1 location.file)
      (line : FieldGives GivesInt 0 entries 2 location.line)
      (column : FieldGives GivesInt 0 entries 3 location.column) :
    GivenBy (.map entries) location

/-- An item gives an image. -/
inductive Image.GivenBy : Cbor → Image → Prop where
  | map {entries} {image : Image} (keys : KeyedBy [1, 2, 3, 4, 5, 6] entries)
      (version : FieldGives GivesInt 0 entries 1 image.version)
      (buildId : FieldGives GivesText [] entries 2 image.buildId)
      (source : FieldGives GivesText [] entries 3 image.source)
      (created : FieldGives GivesInt 0 entries 4 image.created)
      (code : FieldGives (GivesList Instruction.GivenBy) none entries 5 image.code)
      (locations : FieldGives (GivesList Location.GivenBy) none entries 6 image.locations) :
    GivenBy (.map entries) image

/-! ## Images that can be written -/

/-- A text that can be written: it is well formed, and its length fits a word. -/
def Cbor.Storable (t : Text) : Prop := Utf8.valid t = true ∧ t.length < Number.span

instance (t : Text) : Decidable (Cbor.Storable t) :=
  inferInstanceAs (Decidable (Utf8.valid t = true ∧ t.length < Number.span))

/-- A location that can be written. -/
@[mk_iff]
structure Location.Storable (location : Location) : Prop where
  file : Cbor.Storable location.file
  line : Number.fits location.line = true
  column : Number.fits location.column = true

instance (location : Location) : Decidable location.Storable :=
  decidable_of_iff _ (Location.storable_iff location).symm

namespace Image

/-- An image that can be written: its texts are well formed, and its numbers and lengths fit words. -/
@[mk_iff]
structure Sound (image : Image) : Prop where
  version : Number.fits image.version = true
  buildId : Cbor.Storable image.buildId
  source : Cbor.Storable image.source
  created : Number.fits image.created = true
  length_program : image.program.length < Number.span
  comments : ∀ instruction ∈ image.program, Cbor.Storable instruction.comment
  length_locations : (image.locations.getD []).length < Number.span
  locations : ∀ location ∈ image.locations.getD [], location.Storable

instance (image : Image) : Decidable image.Sound := decidable_of_iff _ (sound_iff image).symm

/-- Neither of the lists of an image has more elements than a limit. -/
def Brief (limit : Nat) (image : Image) : Prop :=
  image.program.length ≤ limit ∧ (image.locations.getD []).length ≤ limit

instance (limit : Nat) (image : Image) : Decidable (image.Brief limit) :=
  inferInstanceAs (Decidable (_ ∧ _))

/-- The image as storage has it, where no locations and a list of none are the same. -/
def settled (image : Image) : Image :=
  { image with locations := unlessEmpty (image.locations.getD []) }

/-- What a codec is taken to do, where `limit` is the number of elements it accepts in a list. -/
structure Codec.Conforms [Codec] (limit : Nat) : Prop where
  /-- An image is written as the shortest encoding of its layout. -/
  marshal_eq : ∀ image : Image, image.Sound → Codec.marshal image = .ok image.toCbor.write
  /-- An image is read from every encoding of an item that gives it, if no list in the item is too
  long. -/
  unmarshal_eq : ∀ {item bytes image}, Encodes item bytes → Within limit item → GivenBy item image →
    Codec.unmarshal bytes = .ok image
  /-- No image is read from an item with a list that is too long. -/
  refuses : ∀ {item bytes}, Encodes item bytes → ¬ Within limit item →
    ∃ complaint, Codec.unmarshal bytes = .error complaint
  /-- Texts that are read are well formed, numbers fit words, and lists are not too long. -/
  accepts : ∀ {bytes image}, bytes.length < Number.span → Codec.unmarshal bytes = .ok image →
    image.Sound ∧ image.Brief limit

end Image

/-! ## The shortest encoding -/

namespace Cbor

/-- An argument in bytes of its own can be read from them. -/
theorem head_wide {major n info width : Nat} (hwidth : (info, width) ∈ [(24, 1), (25, 2), (26, 4), (27, 8)])
    (hn : n < 256 ^ width) :
    Head major n (UInt8.ofNat (major * 32 + info) :: Number.bigEndian width n) := by
  have hhead : Head major (Number.ofBigEndian (Number.bigEndian width n))
      (UInt8.ofNat (major * 32 + info) :: Number.bigEndian width n) :=
    .wide (by rwa [Number.length_bigEndian])
  rwa [Number.ofBigEndian_bigEndian hn] at hhead

/-- The shortest head gives its argument, on either side of each change of width. -/
theorem head_head {n : Nat} (major : Nat) (hn : n < Number.span) : Head major n (head major n) := by
  rw [Number.span] at hn
  unfold head
  dsimp only
  split
  case isTrue hsmall => exact .short hsmall
  case isFalse =>
    split
    case isTrue hone => exact head_wide (by decide) (by omega)
    case isFalse =>
      split
      case isTrue htwo => exact head_wide (by decide) (by omega)
      case isFalse =>
        split
        case isTrue hfour => exact head_wide (by decide) (by omega)
        case isFalse => exact head_wide (by decide) (by omega)

/-- Items are written one after the other. -/
theorem writeAll_eq (items : List Cbor) : writeAll items = items.flatMap write := by
  induction items with
  | nil => rfl
  | cons item rest ih => rw [writeAll, ih, List.flatMap_cons]

/-- Entries are written one after the other, each the key before the value. -/
theorem writeEntries_eq (entries : List (Cbor × Cbor)) :
    writeEntries entries = entries.flatMap fun entry => write entry.1 ++ write entry.2 := by
  induction entries with
  | nil => rfl
  | cons entry rest ih => rw [writeEntries, ih, List.flatMap_cons]

/-- The items that images are made of. -/
inductive Plain : Cbor → Prop where
  | unsigned {n} (fits : n < Number.span) : Plain (.unsigned n)
  | negative {n} (fits : n < Number.span) : Plain (.negative n)
  | string {t : Text} (fits : t.length < Number.span) : Plain (.string t)
  | null : Plain .null
  | array {items : List Cbor} (fits : items.length < Number.span)
      (each : ∀ item ∈ items, Plain item) : Plain (.array items)
  | map {entries : List (Cbor × Cbor)} (fits : entries.length < Number.span)
      (keys : ∀ entry ∈ entries, Plain (Prod.fst entry))
      (values : ∀ entry ∈ entries, Plain (Prod.snd entry)) : Plain (.map entries)

/-- The shortest form of a plain item encodes it. -/
theorem Plain.encodes {item : Cbor} (h : Plain item) : Encodes item item.write := by
  induction h with
  | unsigned fits => exact .unsigned (by rw [write]; exact head_head 0 fits)
  | negative fits => exact .negative (by rw [write]; exact head_head 1 fits)
  | @string t fits =>
    rw [show write (.string t) = head 3 t.length ++ t by simp [Cbor.string, write, writeString]]
    exact .string (head_head 3 fits)
  | null => exact .null
  | @array items fits _ ih =>
    -- Each item goes with the bytes it is written in.
    have hitems : (items.map fun item => (item, write item)).map Prod.fst = items := by
      rw [List.map_map]
      exact List.map_id items
    have hbytes : (items.map fun item => (item, write item)).flatMap Prod.snd = items.flatMap write := by
      rw [List.flatMap_map]
    have hencodes := @Encodes.array (items.map fun item => (item, write item)) (head 4 items.length)
      (by rw [List.length_map]; exact head_head 4 fits) (List.forall_mem_map.mpr ih)
    rw [hitems, hbytes] at hencodes
    rwa [write, writeAll_eq]
  | @map entries fits _ _ ihKeys ihValues =>
    have hentries : (entries.map fun entry => ((entry.1, write entry.1), entry.2, write entry.2)).map
        (fun part => (part.1.1, part.2.1)) = entries := by
      rw [List.map_map]
      exact List.map_id entries
    have hbytes : ((entries.map fun entry => ((entry.1, write entry.1), entry.2, write entry.2)).flatMap
        fun part => part.1.2 ++ part.2.2) = entries.flatMap fun entry => write entry.1 ++ write entry.2 := by
      rw [List.flatMap_map]
    have hencodes := @Encodes.map
      (entries.map fun entry => ((entry.1, write entry.1), entry.2, write entry.2))
      (head 5 entries.length) (by rw [List.length_map]; exact head_head 5 fits)
      (List.forall_mem_map.mpr ihKeys) (List.forall_mem_map.mpr ihValues)
    rw [hentries, hbytes] at hencodes
    rwa [write, writeEntries_eq]

/-- An integer that fits a signed word is plain. -/
theorem plain_int {n : Int} (h : Number.fits n = true) : Plain (.int n) := by
  obtain ⟨hleast, hgreatest⟩ := Number.fits_iff.mp h
  cases n with
  | ofNat n =>
    rw [Int.ofNat_eq_natCast] at hgreatest
    exact .unsigned (by rw [Number.span]; omega)
  | negSucc n => exact .negative (by rw [Number.span]; omega)

/-! ## Entries of maps -/

/-- An entry of a map with a number for its key, and whether it is written. -/
structure Field where
  holds : Bool
  key : Nat
  value : Cbor

/-- The entries that are written. -/
def written (fields : List Field) : List (Cbor × Cbor) :=
  (fields.filter Field.holds).map fun field => (.unsigned field.key, field.value)

/-- The keys of entries are different and small. -/
def Keyed (fields : List Field) : Prop :=
  (fields.map Field.key).Nodup ∧ ∀ key ∈ fields.map Field.key, key < 10

section Fields

variable {fields : List Field} {field : Field}

/-- An entry that is written is one of those there are. -/
theorem exists_of_mem_written {entry : Cbor × Cbor} (h : entry ∈ written fields) :
    ∃ field ∈ fields, field.holds = true ∧ entry = (.unsigned field.key, field.value) := by
  obtain ⟨field, hfield, rfl⟩ := List.mem_map.mp h
  obtain ⟨hmem, hholds⟩ := List.mem_filter.mp hfield
  exact ⟨field, hmem, hholds, rfl⟩

/-- No more entries are written than there are. -/
theorem length_written_le (fields : List Field) : (written fields).length ≤ fields.length := by
  rw [written, List.length_map]
  exact List.length_filter_le _ _

/-- The entries that are written have the keys of the fields. -/
theorem keyedBy_written (h : (fields.map Field.key).Nodup) :
    KeyedBy (fields.map Field.key) (written fields) where
  distinct := by
    rw [written, List.map_map]
    have hkeys : ((fields.filter Field.holds).map Field.key).Nodup :=
      h.sublist (List.filter_sublist.map _)
    have hunsigned : Function.Injective Cbor.unsigned := fun _ _ hsame => Cbor.unsigned.inj hsame
    have hboth := hkeys.map hunsigned
    rwa [List.map_map] at hboth
  known entry hentry := by
    obtain ⟨field, hfield, -, rfl⟩ := exists_of_mem_written hentry
    exact ⟨field.key, List.mem_map_of_mem hfield, rfl⟩

/-- A field gives what its entry gives if it is written, and zero if it is left out. -/
theorem fieldGives_of_mem {α : Type} {gives : Cbor → α → Prop} {zero value : α}
    (hkeys : (fields.map Field.key).Nodup) (hfield : field ∈ fields)
    (hholds : field.holds = true → gives field.value value ∨ field.value = .null ∧ value = zero)
    (hzero : field.holds = false → value = zero) :
    FieldGives gives zero (written fields) field.key value := by
  cases hwritten : field.holds with
  | true =>
    have hmem : (.unsigned field.key, field.value) ∈ written fields :=
      List.mem_map.mpr ⟨field, List.mem_filter.mpr ⟨hfield, hwritten⟩, rfl⟩
    rcases hholds hwritten with hgives | ⟨hnull, rfl⟩
    · exact .present hmem hgives
    · exact .null (hnull ▸ hmem)
  | false =>
    obtain rfl := hzero hwritten
    refine .absent fun item hmem => ?_
    -- Another entry with the key would be the same field.
    obtain ⟨other, hother, hholds, hentry⟩ := exists_of_mem_written hmem
    have hkey : field.key = other.key := Cbor.unsigned.inj (Prod.mk.inj hentry).1
    obtain rfl := List.inj_on_of_nodup_map hkeys hfield hother hkey
    cases hwritten.symm.trans hholds

/-- A map of plain values is plain. -/
theorem plain_written (hkeyed : Keyed fields) (hlength : fields.length < Number.span)
    (hvalues : ∀ field ∈ fields, field.holds = true → Plain field.value) :
    Plain (.map (written fields)) := by
  have hwritten := length_written_le fields
  refine .map (by omega) (fun entry hentry => ?_) fun entry hentry => ?_
  · obtain ⟨field, hfield, -, rfl⟩ := exists_of_mem_written hentry
    have hkey := hkeyed.2 field.key (List.mem_map_of_mem hfield)
    exact .unsigned (by rw [Number.span]; omega)
  · obtain ⟨field, hfield, hholds, rfl⟩ := exists_of_mem_written hentry
    exact hvalues field hfield hholds

/-- A map has no list that is too long if its values have none. -/
theorem within_written {limit : Nat}
    (hvalues : ∀ field ∈ fields, field.holds = true → Within limit field.value) :
    Within limit (.map (written fields)) := by
  refine .map (fun entry hentry => ?_) fun entry hentry => ?_
  · obtain ⟨field, -, -, rfl⟩ := exists_of_mem_written hentry
    exact .unsigned _
  · obtain ⟨field, hfield, hholds, rfl⟩ := exists_of_mem_written hentry
    exact hvalues field hfield hholds

/-- An integer that is left out only if it is zero is given by its entry. -/
theorem fieldGives_int {n : Int} (hn : Number.fits n = true) (hkeys : (fields.map Field.key).Nodup)
    (hfield : field ∈ fields) (hvalue : field.value = int n) (hzero : field.holds = false → n = 0) :
    FieldGives GivesInt 0 (written fields) field.key n :=
  fieldGives_of_mem hkeys hfield (fun _ => .inl (hvalue ▸ .int hn)) hzero

/-- A text that is left out only if it is empty is given by its entry. -/
theorem fieldGives_text {t : Text} (ht : Storable t) (hkeys : (fields.map Field.key).Nodup)
    (hfield : field ∈ fields) (hvalue : field.value = string t)
    (hempty : field.holds = false → t = []) :
    FieldGives GivesText [] (written fields) field.key t :=
  fieldGives_of_mem hkeys hfield (fun _ => .inl (hvalue ▸ .text ht.1)) hempty

end Fields

/-- Items that are made one by one give the list they are made from. -/
theorem givesList_map {α : Type} {gives : Cbor → α → Prop} {make : α → Cbor} {items : List α}
    (h : ∀ item ∈ items, gives (make item) item) :
    GivesList gives (.array (items.map make)) (some items) := by
  have hgives := @GivesList.list α gives (items.map fun item => (make item, item))
    (List.forall_mem_map.mpr h)
  have hitems : (items.map fun item => (make item, item)).map Prod.snd = items := by
    rw [List.map_map]
    exact List.map_id items
  rwa [List.map_map, hitems] at hgives

/-- There is no list in an integer. -/
theorem within_int {limit : Nat} (n : Int) : Within limit (.int n) := by
  cases n with
  | ofNat n => exact .unsigned n
  | negSucc n => exact .negative n

end Cbor

/-! ## The layout of an image -/

namespace Instruction

/-- The entries of an instruction. -/
def fields (instruction : Instruction) : List Cbor.Field :=
  [⟨true, 1, .unsigned instruction.op.toByte.toNat⟩,
    ⟨instruction.arg != 0, 2, .int instruction.arg.toInt⟩,
    ⟨!instruction.comment.isEmpty, 3, .string instruction.comment⟩]

/-- The keys of an instruction are different. -/
theorem keyed_fields (instruction : Instruction) : Cbor.Keyed instruction.fields :=
  show List.Nodup [1, 2, 3] ∧ ∀ key ∈ [1, 2, 3], key < 10 by decide

/-- An instruction is laid out as the entries that are written. -/
theorem toCbor_eq (instruction : Instruction) :
    instruction.toCbor = .map (Cbor.written instruction.fields) := by
  unfold toCbor Cbor.written fields Cbor.optional
  cases instruction.arg != 0 <;> cases !instruction.comment.isEmpty <;> rfl

variable {instruction : Instruction}

/-- The layout of an instruction gives it. -/
theorem givenBy_toCbor (h : Cbor.Storable instruction.comment) :
    GivenBy instruction.toCbor instruction := by
  have hkeys := instruction.keyed_fields.1
  rw [toCbor_eq]
  refine .map (keyedBy_written hkeys) ?_ ?_ ?_
  · exact fieldGives_of_mem hkeys (List.mem_of_getElem? (i := 0) rfl) (fun _ => .inl (.byte _)) nofun
  · refine fieldGives_int (Number.fits_toInt _) hkeys (List.mem_of_getElem? (i := 1) rfl) rfl fun h => ?_
    have hzero : instruction.arg = 0 := by simpa using h
    rw [hzero]
    rfl
  · exact fieldGives_text h hkeys (List.mem_of_getElem? (i := 2) rfl) rfl fun h => by simpa using h

/-- The layout of an instruction is plain. -/
theorem plain_toCbor (h : Cbor.Storable instruction.comment) : Cbor.Plain instruction.toCbor := by
  have hbyte := instruction.op.toByte.toNat_lt
  rw [toCbor_eq]
  refine Cbor.plain_written instruction.keyed_fields (show 3 < Number.span by decide) ?_
  simp only [fields, List.forall_mem_cons]
  exact ⟨fun _ => .unsigned (by rw [Number.span]; omega), fun _ => Cbor.plain_int (Number.fits_toInt _),
    fun _ => .string h.2, fun _ hmem => absurd hmem List.not_mem_nil⟩

/-- There is no list in the layout of an instruction. -/
theorem within_toCbor (limit : Nat) (instruction : Instruction) :
    Cbor.Within limit instruction.toCbor := by
  rw [toCbor_eq]
  refine Cbor.within_written ?_
  simp only [fields, List.forall_mem_cons]
  exact ⟨fun _ => .unsigned _, fun _ => Cbor.within_int _, fun _ => .string _,
    fun _ hmem => absurd hmem List.not_mem_nil⟩

end Instruction

namespace Location

/-- The entries of a location. -/
def fields (location : Location) : List Cbor.Field :=
  [⟨!location.file.isEmpty, 1, .string location.file⟩, ⟨true, 2, .int location.line⟩,
    ⟨true, 3, .int location.column⟩]

/-- The keys of a location are different. -/
theorem keyed_fields (location : Location) : Cbor.Keyed location.fields :=
  show List.Nodup [1, 2, 3] ∧ ∀ key ∈ [1, 2, 3], key < 10 by decide

/-- A location is laid out as the entries that are written. -/
theorem toCbor_eq (location : Location) : location.toCbor = .map (Cbor.written location.fields) := by
  unfold toCbor Cbor.written fields Cbor.optional
  cases !location.file.isEmpty <;> rfl

variable {location : Location}

/-- The layout of a location gives it. -/
theorem givenBy_toCbor (h : location.Storable) : GivenBy location.toCbor location := by
  have hkeys := location.keyed_fields.1
  rw [toCbor_eq]
  refine .map (keyedBy_written hkeys) ?_ ?_ ?_
  · exact fieldGives_text h.file hkeys (List.mem_of_getElem? (i := 0) rfl) rfl fun h => by simpa using h
  · exact fieldGives_int h.line hkeys (List.mem_of_getElem? (i := 1) rfl) rfl nofun
  · exact fieldGives_int h.column hkeys (List.mem_of_getElem? (i := 2) rfl) rfl nofun

/-- The layout of a location is plain. -/
theorem plain_toCbor (h : location.Storable) : Cbor.Plain location.toCbor := by
  rw [toCbor_eq]
  refine Cbor.plain_written location.keyed_fields (show 3 < Number.span by decide) ?_
  simp only [fields, List.forall_mem_cons]
  exact ⟨fun _ => .string h.file.2, fun _ => Cbor.plain_int h.line, fun _ => Cbor.plain_int h.column,
    fun _ hmem => absurd hmem List.not_mem_nil⟩

/-- There is no list in the layout of a location. -/
theorem within_toCbor (limit : Nat) (location : Location) : Cbor.Within limit location.toCbor := by
  rw [toCbor_eq]
  refine Cbor.within_written ?_
  simp only [fields, List.forall_mem_cons]
  exact ⟨fun _ => .string _, fun _ => Cbor.within_int _, fun _ => Cbor.within_int _,
    fun _ hmem => absurd hmem List.not_mem_nil⟩

end Location

namespace Image

/-- The entries of an image. -/
def fields (image : Image) : List Cbor.Field :=
  let locations := image.locations.getD []
  [⟨true, 1, .int image.version⟩, ⟨true, 2, .string image.buildId⟩,
    ⟨!image.source.isEmpty, 3, .string image.source⟩, ⟨image.created != 0, 4, .int image.created⟩,
    ⟨true, 5, image.code.elim .null fun code => .array (code.map Instruction.toCbor)⟩,
    ⟨!locations.isEmpty, 6, .array (locations.map Location.toCbor)⟩]

/-- The keys of an image are different. -/
theorem keyed_fields (image : Image) : Cbor.Keyed image.fields :=
  show List.Nodup [1, 2, 3, 4, 5, 6] ∧ ∀ key ∈ [1, 2, 3, 4, 5, 6], key < 10 by decide

/-- An image is laid out as the entries that are written. -/
theorem toCbor_eq (image : Image) : image.toCbor = .map (Cbor.written image.fields) := by
  unfold toCbor Cbor.written fields Cbor.optional
  dsimp only
  cases !image.source.isEmpty <;> cases image.created != 0 <;>
    cases !(image.locations.getD []).isEmpty <;> rfl

/-- A list that is left out if it is empty has the same elements. -/
theorem getD_unlessEmpty {α : Type} (items : List α) : (unlessEmpty items).getD [] = items := by
  cases items <;> rfl

variable {image : Image}

/-- The layout of an image gives it, as storage has it. -/
theorem givenBy_toCbor (h : image.Sound) : GivenBy image.toCbor image.settled := by
  have hkeys := image.keyed_fields.1
  rw [toCbor_eq]
  refine .map (keyedBy_written hkeys) ?_ ?_ ?_ ?_ ?_ ?_
  · exact fieldGives_int h.version hkeys (List.mem_of_getElem? (i := 0) rfl) rfl nofun
  · exact fieldGives_text h.buildId hkeys (List.mem_of_getElem? (i := 1) rfl) rfl nofun
  · exact fieldGives_text h.source hkeys (List.mem_of_getElem? (i := 2) rfl) rfl fun h => by simpa using h
  · exact fieldGives_int h.created hkeys (List.mem_of_getElem? (i := 3) rfl) rfl fun h => by simpa using h
  · refine fieldGives_of_mem hkeys (List.mem_of_getElem? (i := 4) rfl) (fun _ => ?_) nofun
    have hcomments := h.comments
    rw [program] at hcomments
    rw [settled]
    dsimp only
    cases hcode : image.code with
    | none => exact .inr ⟨rfl, rfl⟩
    | some code =>
      rw [hcode] at hcomments
      exact .inl (givesList_map fun i hmem => Instruction.givenBy_toCbor (hcomments i hmem))
  · refine fieldGives_of_mem hkeys (List.mem_of_getElem? (i := 5) rfl) (fun hholds => .inl ?_)
      fun hholds => ?_
    · have hpresent : ¬ (image.locations.getD []).isEmpty = true := by simpa using hholds
      rw [settled, unlessEmpty, if_neg hpresent]
      exact givesList_map fun location hmem => Location.givenBy_toCbor (h.locations location hmem)
    · have habsent : (image.locations.getD []).isEmpty = true := by simpa using hholds
      rw [settled, unlessEmpty, if_pos habsent]

/-- The layout of an image is plain. -/
theorem plain_toCbor (h : image.Sound) : Cbor.Plain image.toCbor := by
  have hlocations : Cbor.Plain (.array ((image.locations.getD []).map Location.toCbor)) :=
    .array (by rw [List.length_map]; exact h.length_locations)
      (List.forall_mem_map.mpr fun location hmem => Location.plain_toCbor (h.locations location hmem))
  have hcode : Cbor.Plain (image.code.elim .null fun code => .array (code.map Instruction.toCbor)) := by
    have hlength := h.length_program
    have hcomments := h.comments
    rw [program] at hlength hcomments
    cases hcode : image.code with
    | none => exact .null
    | some code =>
      rw [hcode] at hlength hcomments
      exact .array (by rw [List.length_map]; exact hlength)
        (List.forall_mem_map.mpr fun _ hmem => Instruction.plain_toCbor (hcomments _ hmem))
  rw [toCbor_eq]
  refine Cbor.plain_written image.keyed_fields (show 6 < Number.span by decide) ?_
  simp only [fields, List.forall_mem_cons]
  exact ⟨fun _ => Cbor.plain_int h.version, fun _ => .string h.buildId.2, fun _ => .string h.source.2,
    fun _ => Cbor.plain_int h.created, fun _ => hcode, fun _ => hlocations,
    fun _ hmem => absurd hmem List.not_mem_nil⟩

/-- The layout of an image has a list that is too long just if the image has. -/
theorem within_toCbor_iff (limit : Nat) (image : Image) :
    Cbor.Within limit image.toCbor ↔ image.Brief limit := by
  rw [toCbor_eq]
  constructor
  · intro h
    cases h with
    | map _ values =>
      have hvalue (field : Cbor.Field) (hfield : field ∈ image.fields) (hholds : field.holds = true) :
          Cbor.Within limit field.value :=
        values _ (List.mem_map.mpr ⟨field, List.mem_filter.mpr ⟨hfield, hholds⟩, rfl⟩)
      constructor
      · have hcode := hvalue _ (List.mem_of_getElem? (i := 4) rfl) rfl
        rw [program]
        cases hprogram : image.code with
        | none => exact Nat.zero_le _
        | some code =>
          rw [hprogram] at hcode
          cases hcode with
          | array few _ => rwa [List.length_map] at few
      · by_cases hempty : (image.locations.getD []).isEmpty = true
        · rw [List.isEmpty_iff.mp hempty]
          exact Nat.zero_le _
        · have hlocations := hvalue _ (List.mem_of_getElem? (i := 5) rfl) (by simpa using hempty)
          cases hlocations with
          | array few _ => rwa [List.length_map] at few
  · rintro ⟨hprogram, hlocations⟩
    refine Cbor.within_written ?_
    simp only [fields, List.forall_mem_cons]
    refine ⟨fun _ => Cbor.within_int _, fun _ => .string _, fun _ => .string _, fun _ => Cbor.within_int _,
      fun _ => ?_, fun _ => ?_, fun _ hmem => absurd hmem List.not_mem_nil⟩
    · rw [program] at hprogram
      cases hcode : image.code with
      | none => exact .null
      | some code =>
        rw [hcode] at hprogram
        exact .array (by rwa [List.length_map])
          (List.forall_mem_map.mpr fun i _ => i.within_toCbor limit)
    · exact .array (by rwa [List.length_map])
        (List.forall_mem_map.mpr fun location _ => location.within_toCbor limit)

/-- An image and the same one as storage has it are laid out alike. -/
theorem toCbor_settled (image : Image) : image.settled.toCbor = image.toCbor := by
  have hlocations : image.settled.locations.getD [] = image.locations.getD [] := getD_unlessEmpty _
  rw [toCbor, toCbor, hlocations]
  rfl

end Image

end Tapestry

import Tapestry.Proofs.ImageReading
import Tapestry.Proofs.ScopeContents

/-!
# Images in storage

The bytes of an item say where they end, so bytes encode one item only. This needs no reader: a reader
refuses lists that are too long, but they are told apart in storage as all others are.

With any codec that conforms to the format, an image is read back just if its lists are not too long,
different images are written differently, and an image that was read is read back when it is written
again.
-/

namespace Tapestry

namespace Cbor

variable {bytes bytes' following rest : Text} {item other : Cbor}

/-! ## Telling items apart -/

/-- Heads are told apart, whatever follows them. -/
theorem Head.append_inj {major major' n n' : Nat} (h : Head major n bytes)
    (h' : Head major' n' bytes') (hmajor : major < 8) (hmajor' : major' < 8)
    (hsame : bytes ++ rest = bytes' ++ following) : major = major' ∧ n = n' ∧ rest = following := by
  obtain ⟨first, digits, rfl, hannounces⟩ := h.exists_announces hmajor
  obtain ⟨first', digits', rfl, hannounces'⟩ := h'.exists_announces hmajor'
  obtain ⟨rfl, hdigits⟩ := List.cons.inj hsame
  have hargument := hannounces.argument_eq rest
  rw [show digits ++ rest = digits' ++ following from hdigits, hannounces'.argument_eq] at hargument
  cases hargument
  exact ⟨hannounces.major_eq.symm.trans hannounces'.major_eq, rfl, rfl⟩

/-- The major type of an item. -/
def major : Cbor → Nat
  | .unsigned _ => 0
  | .negative _ => 1
  | .binary _ => 2
  | .text _ => 3
  | .array _ => 4
  | .map _ => 5
  | .tag _ _ => 6
  | .simple _ | .float _ => 7

/-- There are eight major types. -/
theorem major_lt (item : Cbor) : item.major < 8 := by
  cases item <;> exact of_decide_eq_true rfl

/-- The bytes of an item start with its major type. -/
theorem Encodes.exists_head (h : Encodes item bytes) :
    ∃ n head tail, Head item.major n head ∧ bytes = head ++ tail := by
  cases h with
  | unsigned head => exact ⟨_, _, [], head, (List.append_nil _).symm⟩
  | negative head => exact ⟨_, _, [], head, (List.append_nil _).symm⟩
  | string head => exact ⟨_, _, _, head, rfl⟩
  | null => exact ⟨22, [0xF6], [], .short (by decide), rfl⟩
  | array head _ => exact ⟨_, _, _, head, rfl⟩
  | map head _ _ => exact ⟨_, _, _, head, rfl⟩

/-- Items whose bytes start alike have one major type. -/
theorem Encodes.major_eq (h : Encodes item bytes) (hother : Encodes other bytes')
    (hsame : bytes ++ rest = bytes' ++ following) : item.major = other.major := by
  obtain ⟨n, head, tail, hhead, rfl⟩ := h.exists_head
  obtain ⟨n', head', tail', hhead', rfl⟩ := hother.exists_head
  rw [List.append_assoc, List.append_assoc] at hsame
  exact (hhead.append_inj hhead' (major_lt item) (major_lt other) hsame).1

/-- Rows of one length are told apart if their parts are. -/
theorem flatMap_append_inj {α β : Type} {value : β → α} {bytes : β → Text} {good : β → Prop}
    {parts others : List β}
    (hparts : ∀ part ∈ parts, ∀ {other}, good other →
      ∀ {rest following : Text}, bytes part ++ rest = bytes other ++ following →
        value part = value other ∧ rest = following)
    (hothers : ∀ other ∈ others, good other) (hlength : parts.length = others.length)
    (h : parts.flatMap bytes ++ rest = others.flatMap bytes ++ following) :
    parts.map value = others.map value ∧ rest = following := by
  induction parts generalizing others with
  | nil =>
    obtain rfl : others = [] := List.eq_nil_of_length_eq_zero hlength.symm
    exact ⟨rfl, h⟩
  | cons part parts ih =>
    cases others with
    | nil => cases hlength
    | cons other others =>
      obtain ⟨hpart, hlater⟩ := List.forall_mem_cons.mp hparts
      obtain ⟨hother, hothers⟩ := List.forall_mem_cons.mp hothers
      rw [List.flatMap_cons, List.flatMap_cons, List.append_assoc, List.append_assoc] at h
      obtain ⟨hvalue, hbehind⟩ := hpart hother h
      obtain ⟨hvalues, hfollowing⟩ := ih hlater hothers (Nat.succ.inj hlength) hbehind
      exact ⟨congrArg₂ List.cons hvalue hvalues, hfollowing⟩

/-- Bytes encode one item only, whatever follows them. -/
theorem Encodes.append_inj (h : Encodes item bytes) (hother : Encodes other bytes')
    (hsame : bytes ++ rest = bytes' ++ following) : item = other ∧ rest = following := by
  have hmajor := h.major_eq hother hsame
  -- The major type gives the shape of the other item, and the head its length.
  induction h generalizing other bytes' rest following with
  | unsigned head =>
    cases hother with
    | unsigned head' =>
      obtain ⟨-, hn, hrest⟩ := head.append_inj head' (by decide) (by decide) hsame
      exact ⟨congrArg Cbor.unsigned hn, hrest⟩
    | _ => cases hmajor
  | negative head =>
    cases hother with
    | negative head' =>
      obtain ⟨-, hn, hrest⟩ := head.append_inj head' (by decide) (by decide) hsame
      exact ⟨congrArg Cbor.negative hn, hrest⟩
    | _ => cases hmajor
  | string head =>
    cases hother with
    | string head' =>
      rw [List.append_assoc, List.append_assoc] at hsame
      obtain ⟨-, hlength, hbehind⟩ := head.append_inj head' (by decide) (by decide) hsame
      obtain ⟨rfl, rfl⟩ := List.append_inj hbehind hlength
      exact ⟨rfl, rfl⟩
    | _ => cases hmajor
  | null =>
    cases hother with
    | null => exact ⟨rfl, (List.cons.inj hsame).2⟩
    | _ => cases hmajor
  | array head each ih =>
    cases hother with
    | array head' each' =>
      rw [List.append_assoc, List.append_assoc] at hsame
      obtain ⟨-, hlength, hbehind⟩ := head.append_inj head' (by decide) (by decide) hsame
      obtain ⟨hitems, hrest⟩ := flatMap_append_inj (fun part hpart {_} hgood {_ _} hsame =>
        ih part hpart hgood hsame ((each part hpart).major_eq hgood hsame)) each' hlength hbehind
      exact ⟨congrArg Cbor.array hitems, hrest⟩
    | _ => cases hmajor
  | @map parts _ head keys values ihKeys ihValues =>
    cases hother with
    | map head' keys' values' =>
      rw [List.append_assoc, List.append_assoc] at hsame
      obtain ⟨-, hlength, hbehind⟩ := head.append_inj head' (by decide) (by decide) hsame
      have hentry (part) (hpart : part ∈ parts) {other : (Cbor × Text) × Cbor × Text}
          (hgood : Encodes other.1.1 other.1.2 ∧ Encodes other.2.1 other.2.2) {rest following : Text}
          (hsame : part.1.2 ++ part.2.2 ++ rest = other.1.2 ++ other.2.2 ++ following) :
          (part.1.1, part.2.1) = (other.1.1, other.2.1) ∧ rest = following := by
        rw [List.append_assoc, List.append_assoc] at hsame
        obtain ⟨hkey, hsame⟩ := ihKeys part hpart hgood.1 hsame
          ((keys part hpart).major_eq hgood.1 hsame)
        obtain ⟨hvalue, hsame⟩ := ihValues part hpart hgood.2 hsame
          ((values part hpart).major_eq hgood.2 hsame)
        exact ⟨congrArg₂ Prod.mk hkey hvalue, hsame⟩
      obtain ⟨hentries, hrest⟩ := flatMap_append_inj hentry
        (fun part hpart => ⟨keys' part hpart, values' part hpart⟩) hlength hbehind
      exact ⟨congrArg Cbor.map hentries, hrest⟩
    | _ => cases hmajor

end Cbor

namespace Image

/-! ## Any codec that conforms -/

section Conforms

variable [Codec] {limit : Nat} {image : Image}

/-- An image is written as its layout. -/
theorem write_eq (h : Codec.Conforms limit) (hsound : image.Sound) :
    image.write = .ok image.toCbor.write := h.marshal_eq image hsound

/-- An image of the current version is read back as storage has it, if its lists are not too long. -/
theorem read_toCbor (h : Codec.Conforms limit) (hsound : image.Sound) (hbrief : image.Brief limit)
    (hversion : image.version = currentVersion) : read image.toCbor.write = .ok image.settled := by
  rw [read, h.unmarshal_eq (plain_toCbor hsound).encodes ((within_toCbor_iff limit image).mpr hbrief)
    (givenBy_toCbor hsound)]
  exact if_pos hversion

/-- An image with a list that is too long is refused. -/
theorem read_toCbor_of_not_brief (h : Codec.Conforms limit) (hsound : image.Sound)
    (hlong : ¬ image.Brief limit) :
    ∃ complaint, read image.toCbor.write = .error (.malformed complaint) := by
  obtain ⟨complaint, hrefused⟩ := h.refuses (plain_toCbor hsound).encodes
    (mt (within_toCbor_iff limit image).mp hlong)
  exact ⟨complaint, by rw [read, hrefused]⟩

/-- An image that was read can be written, its lists are not too long, and it has the current
version. -/
theorem sound_of_read (h : Codec.Conforms limit) {bytes : Text} (hsize : bytes.length < Number.span)
    (hread : read bytes = .ok image) :
    image.Sound ∧ image.Brief limit ∧ image.version = currentVersion := by
  rw [read] at hread
  split at hread
  case h_1 => cases hread
  case h_2 found hfound =>
    split at hread
    case isTrue hversion =>
      cases hread
      obtain ⟨hsound, hbrief⟩ := h.accepts hsize hfound
      exact ⟨hsound, hbrief, hversion⟩
    case isFalse => cases hread

end Conforms

/-- Images are laid out in the same bytes just if they are the same in storage. -/
theorem write_toCbor_eq_iff {image other : Image} (h : image.Sound) (hother : other.Sound) :
    image.toCbor.write = other.toCbor.write ↔ image.settled = other.settled := by
  constructor
  · intro hbytes
    obtain ⟨hitem, -⟩ := (plain_toCbor h).encodes.append_inj (plain_toCbor hother).encodes
      (congrArg (· ++ []) hbytes)
    have hgiven := (givenBy_toCbor h).ofCbor?_eq
    rw [hitem, (givenBy_toCbor hother).ofCbor?_eq] at hgiven
    exact (Option.some.inj hgiven).symm
  · intro hsettled
    rw [← toCbor_settled image, hsettled, toCbor_settled]

/-- With a codec that conforms, an image of the current version is read back from its bytes, with no
locations in place of a list of none, just if neither of its lists is longer than the codec accepts;
else its bytes are refused. Different images have different bytes, however long. An image that was
read, from any bytes, is read back from the bytes it is written in. -/
theorem stored_images_read_back [Codec] {limit : Nat} (h : Codec.Conforms limit) :
    (∀ image : Image, image.Sound → image.version = currentVersion →
      ∃ bytes, image.write = .ok bytes ∧
        if image.Brief limit then read bytes = .ok image.settled
        else ∃ complaint, read bytes = .error (.malformed complaint)) ∧
      (∀ image other : Image, image.Sound → other.Sound →
        (image.write = other.write ↔ image.settled = other.settled)) ∧
      ∀ (bytes : Text) (image : Image), bytes.length < Number.span → read bytes = .ok image →
        ∃ again, image.write = .ok again ∧ read again = .ok image.settled := by
  refine ⟨fun image hsound hversion => ⟨_, write_eq h hsound, ?_⟩, fun image other hsound hother => ?_,
    fun bytes image hsize hread => ?_⟩
  · split
    case isTrue hbrief => exact read_toCbor h hsound hbrief hversion
    case isFalse hlong => exact read_toCbor_of_not_brief h hsound hlong
  · rw [write_eq h hsound, write_eq h hother, Except.ok.injEq]
    exact write_toCbor_eq_iff hsound hother
  · obtain ⟨hsound, hbrief, hversion⟩ := sound_of_read h hsize hread
    exact ⟨_, write_eq h hsound, read_toCbor h hsound hbrief hversion⟩

/-- An image with negative numbers and a list of no locations. -/
def brief : Image :=
  { version := 1, buildId := "b", source := [], created := -5,
    code := some [.moveCell (-300), .nop "c"], locations := some [] }

/-- The version in a map of unstated length, where all else is left out. -/
def bareBytes : Text := [0xBF, 0x01, 0x01, 0xFF]

/-- The image of that version alone. -/
def bare : Image :=
  { version := 1, buildId := [], source := [], created := 0, code := none, locations := none }

/-- An image with a list of no locations comes back without one, and an image that was read from other
bytes comes back as it is. -/
theorem stored_images_read_back_brief :
    (brief.Sound ∧ brief.version = currentVersion ∧
      ∃ bytes, brief.write = .ok bytes ∧ read bytes = .ok { brief with locations := none }) ∧
      (bare.Sound ∧ brief.write ≠ bare.write) ∧
      bareBytes.length < Number.span ∧ read bareBytes = .ok bare ∧ bare.write ≠ .ok bareBytes ∧
        ∃ again, bare.write = .ok again ∧ read again = .ok bare := by
  obtain ⟨hback, hinjective, hagain⟩ := stored_images_read_back codec_conforms
  have hbrief : brief.Sound := by decide +kernel
  have hbare : bare.Sound := by decide +kernel
  have hread : read bareBytes = .ok bare := eq_ok_of_toOption (by decide +kernel)
  obtain ⟨bytes, hwrite, hgiven⟩ := hback brief hbrief rfl
  rw [if_pos (by decide)] at hgiven
  have hother : bare.toCbor.write ≠ bareBytes := by decide +kernel
  refine ⟨⟨hbrief, rfl, bytes, hwrite, hgiven⟩, ⟨hbare, fun hsame => ?_⟩, by decide, hread,
    fun hsame => hother (Except.ok.inj hsame), hagain bareBytes bare (by decide) hread⟩
  have hsettled := (hinjective brief bare hbrief hbare).mp hsame
  cases congrArg buildId hsettled

/-- A program with one instruction more than the codec of the program accepts. -/
def overlong : Image := { bare with code := some (List.replicate (Cbor.maxEntries + 1) (.nop [])) }

/-- That program is as long as it should be. -/
theorem length_program_overlong : overlong.program.length = Cbor.maxEntries + 1 := List.length_replicate

/-- That image can be written. -/
theorem sound_overlong : overlong.Sound := by
  have hempty : Cbor.Storable [] := by decide
  refine ⟨rfl, hempty, hempty, rfl, ?_, fun instruction hmem => ?_, by decide, nofun⟩
  · rw [length_program_overlong]
    decide
  · rw [List.eq_of_mem_replicate hmem]
    exact hempty

/-- That image has a list that is too long. -/
theorem not_brief_overlong : ¬ overlong.Brief Cbor.maxEntries := by
  rw [Brief, length_program_overlong]
  omega

/-- That image is written but is not read back. -/
theorem overlong_not_read_back :
    overlong.Sound ∧ overlong.version = currentVersion ∧
      ∃ bytes, overlong.write = .ok bytes ∧ ¬ ∃ image, read bytes = .ok image := by
  refine ⟨sound_overlong, rfl, _, write_eq codec_conforms sound_overlong, ?_⟩
  rintro ⟨image, hread⟩
  obtain ⟨complaint, hrefused⟩ :=
    read_toCbor_of_not_brief codec_conforms sound_overlong not_brief_overlong
  cases hrefused.symm.trans hread

end Image

end Tapestry

import Tapestry.File.Uri
import Tapestry.Proofs.Rebuilding
import Tapestry.Proofs.WordPlaces

/-!
# Texts of units

An expansion knows a unit by its name, and an editor by a locator. The locator of a unit leads back
to its name. Under its name the text of the unit is found: the source that is built, or what the
loader reads. Every expression of an expansion stands in the text of the unit that it is filed under.
-/

namespace Tapestry

variable {disk : Disk}

/-! ## Locators -/

/-- An absolute path begins with a slash. -/
theorem Path.exists_of_isAbsolute {path : Text} (h : isAbsolute path = true) :
    ∃ rest, path = slash :: rest := by
  cases path with
  | nil => cases h
  | cons b rest => exact ⟨rest, by simpa [isAbsolute] using h⟩

namespace Uri

/-- What a byte is written as in a path. -/
def escapeByte (b : UInt8) : Text := if isPlain b then [b] else percent :: Number.hexUpper 2 b.toNat

/-- The byte that two hexadecimal digits give. -/
def hexPair? : Text → Option UInt8
  | [high, low] => do
    let upper ← Byte.hexValue? high
    let lower ← Byte.hexValue? low
    return UInt8.ofNat (16 * upper + lower)
  | _ => none

/-- A test that every number below 256 passes is passed by every byte. -/
theorem forall_byte {p : UInt8 → Bool} (h : (List.range 256).all (fun n => p (UInt8.ofNat n)) = true)
    (b : UInt8) : p b = true := by
  have hbyte := List.all_eq_true.mp h b.toNat (List.mem_range.mpr b.toNat_lt)
  rwa [UInt8.ofNat_toNat] at hbyte

/-- A byte is read back from its two digits. -/
theorem hexPair?_hexUpper (b : UInt8) : hexPair? (Number.hexUpper 2 b.toNat) = some b := by
  have hpair := forall_byte (p := fun b => hexPair? (Number.hexUpper 2 b.toNat) == some b)
    (by decide +kernel) b
  exact eq_of_beq hpair

/-- What a byte is written as has no byte that ends a path or spoils a locator. -/
theorem escapeByte_plain (b : UInt8) :
    ∀ c ∈ escapeByte b, c ≠ 35 ∧ c ≠ 63 ∧ isControl c = false := by
  have hplain := forall_byte (p := fun b => (escapeByte b).all fun c => c != 35 && c != 63 && !isControl c)
    (by decide +kernel) b
  intro c hc
  simpa [and_assoc] using List.all_eq_true.mp hplain c hc

/-- Escapes are undone byte by byte. -/
theorem unescape?_escapeByte (b : UInt8) (rest : Text) :
    unescape? (escapeByte b ++ rest) = (b :: ·) <$> unescape? rest := by
  unfold escapeByte
  split
  case isTrue hplain =>
    have hb : b ≠ percent := by
      rintro rfl
      exact absurd hplain (by decide)
    rw [List.singleton_append, unescape?.eq_def]
    simp only [if_neg hb]
  case isFalse =>
    have hpair := hexPair?_hexUpper b
    generalize Number.hexUpper 2 b.toNat = digits at hpair
    unfold hexPair? at hpair
    split at hpair
    case h_1 high low =>
      obtain ⟨upper, hupper, hpair⟩ := Option.bind_eq_some_iff.mp hpair
      obtain ⟨lower, hlower, hpair⟩ := Option.bind_eq_some_iff.mp hpair
      rw [List.cons_append, unescape?.eq_def]
      simp only [if_true, List.cons_append, List.nil_append, hupper, hlower, Option.bind_eq_bind,
        Option.bind_some, Option.some.inj hpair]
      cases unescape? rest <;> rfl
    case h_2 => cases hpair

/-- Bytes are escaped one by one. -/
theorem escape_cons (b : UInt8) (path : Text) : escape (b :: path) = escapeByte b ++ escape path :=
  List.flatMap_cons

/-- A path is read back from its escaped form. -/
theorem unescape?_escape (path : Text) : unescape? (escape path) = some path := by
  induction path with
  | nil => rfl
  | cons b rest ih => rw [escape_cons, unescape?_escapeByte, ih, Option.map_eq_map, Option.map_some]

/-- An escaped path has no number sign, question mark or control byte. -/
theorem escape_plain (path : Text) : ∀ c ∈ escape path, c ≠ 35 ∧ c ≠ 63 ∧ isControl c = false := by
  intro c hc
  obtain ⟨b, _, hb⟩ := List.mem_flatMap.mp hc
  exact escapeByte_plain b c hb

/-- A path behind two slashes needs no host. -/
theorem escapedPath?_of_absolute {path : Text} (h : Path.isAbsolute path = true) :
    escapedPath? (Text.ofString "//" ++ path) = some path := by
  obtain ⟨rest, rfl⟩ := Path.exists_of_isAbsolute h
  rfl

/-- An absolute path begins with a slash when it is escaped, too. -/
theorem isAbsolute_escape {path : Text} (h : Path.isAbsolute path = true) :
    Path.isAbsolute (escape path) = true := by
  obtain ⟨rest, rfl⟩ := Path.exists_of_isAbsolute h
  rfl

/-- The locator of a path from the root leads back to it. -/
theorem filePath?_ofPath {path : Text} (h : Path.isAbsolute path = true) :
    filePath? (ofPath path) = some path := by
  have huri : ofPath path = scheme ++ (Text.ofString "//" ++ escape path) := by
    rw [ofPath, if_pos h, List.append_assoc]
  have hplain : ∀ c ∈ Text.ofString "//" ++ escape path, c ≠ 35 ∧ c ≠ 63 ∧ isControl c = false := by
    intro c hc
    rcases List.mem_append.mp hc with hslash | hpath
    · exact (by decide +kernel : ∀ c ∈ Text.ofString "//", c ≠ 35 ∧ c ≠ 63 ∧ isControl c = false) c hslash
    · exact escape_plain path c hpath
  have hall : ∀ c ∈ ofPath path, c ≠ 35 ∧ isControl c = false := by
    intro c hc
    rcases List.mem_append.mp (huri ▸ hc) with hscheme | hrest
    · exact (by decide +kernel : ∀ c ∈ scheme, c ≠ 35 ∧ isControl c = false) c hscheme
    · exact ⟨(hplain c hrest).1, (hplain c hrest).2.2⟩
  have hfront : (ofPath path).takeWhile (· != 35) = ofPath path :=
    List.takeWhile_eq_self_iff.mpr fun c hc => by simpa using (hall c hc).1
  have hprinted : (ofPath path).any isControl = false :=
    List.any_eq_false.mpr fun c hc => by simp [(hall c hc).2]
  have hbehind : ((ofPath path).drop scheme.length).takeWhile (· != 63) =
      Text.ofString "//" ++ escape path := by
    rw [huri, List.drop_left]
    exact List.takeWhile_eq_self_iff.mpr fun c hc => by simpa using (hplain c hc).2.1
  have hscheme : Utf8.equalFold ((ofPath path).take scheme.length) scheme = true := by
    rw [huri, List.take_left]
    decide
  unfold filePath?
  dsimp only
  rw [hfront, hprinted, hscheme, hbehind, escapedPath?_of_absolute (isAbsolute_escape h),
    List.drop_eq_nil_of_le (Nat.le_succ _)]
  change (unescape? (escape path)).bind (fun found => (unescape? []).bind fun _ => some found) = some path
  rw [unescape?_escape]
  rfl

/-- The path of a locator is absolute, unless it is empty. -/
theorem of_escapedPath? {rest path : Text} (h : escapedPath? rest = some path) :
    Path.isAbsolute path = true ∨ path = [] := by
  unfold escapedPath? at h
  split at h
  case isTrue =>
    dsimp only at h
    split at h
    case isTrue =>
      -- What is left behind the host starts with the slash that ended it.
      have hpath : path = (rest.drop 2).dropWhile (· != Path.slash) := by
        rw [← Option.some.inj h, ← List.drop_drop]
        nth_rewrite 2 [← List.takeWhile_append_dropWhile (p := (· != Path.slash)) (l := rest.drop 2)]
        exact List.drop_left
      have hhead := List.head?_dropWhile_not (· != Path.slash) (rest.drop 2)
      rw [← hpath] at hhead
      cases path with
      | nil => exact .inr rfl
      | cons b tail =>
        obtain rfl : b = Path.slash := by simpa using hhead
        exact .inl rfl
    case isFalse => cases h
  case isFalse =>
    split at h
    case isTrue habsolute => exact .inl (Option.some.inj h ▸ habsolute)
    case isFalse => exact .inr (Option.some.inj h).symm

/-- A path that is read off a locator begins at the root, or is empty. -/
theorem of_filePath? {uri path : Text} (h : filePath? uri = some path) :
    Path.isAbsolute path = true ∨ path = [] := by
  obtain ⟨_, _, h⟩ := Option.bind_eq_some_iff.mp h
  obtain ⟨escaped, hescaped, h⟩ := Option.bind_eq_some_iff.mp h
  obtain ⟨found, hfound, h⟩ := Option.bind_eq_some_iff.mp h
  obtain ⟨_, _, h⟩ := Option.bind_eq_some_iff.mp h
  obtain rfl : found = path := Option.some.inj h
  rcases of_escapedPath? hescaped with habsolute | rfl
  · obtain ⟨rest, rfl⟩ := Path.exists_of_isAbsolute habsolute
    rw [show Path.slash :: rest = escapeByte Path.slash ++ rest from rfl, unescape?_escapeByte] at hfound
    obtain ⟨tail, _, rfl⟩ := Option.map_eq_some_iff.mp hfound
    exact .inl rfl
  · exact .inr (Option.some.inj hfound).symm

/-- The locator of an absolute path leads back to it. -/
theorem path_ofPath {path : Text} (h : Path.isAbsolute path = true) : Uri.path (ofPath path) = path := by
  rw [Uri.path, filePath?_ofPath h, Option.getD_some]

/-- The locator of the path that a locator names leads back to the path. -/
theorem path_ofPath_path (uri : Text) : path (ofPath (path uri)) = path uri := by
  cases huri : filePath? uri with
  | none =>
    have hpath : path uri = uri := by rw [path, huri, Option.getD_none]
    rw [hpath]
    by_cases habsolute : Path.isAbsolute uri = true
    · exact path_ofPath habsolute
    · rw [ofPath, if_neg habsolute, hpath]
  | some found =>
    have hpath : path uri = found := by rw [path, huri, Option.getD_some]
    rw [hpath]
    rcases of_filePath? huri with habsolute | rfl
    · exact path_ofPath habsolute
    · rfl

end Uri

/-! ## Texts -/

/-- A loader that reads every unit it gives from the text of its name. -/
def Loader.ReadsFrom (loader : Loader) (texts : Text → Option Text) : Prop :=
  ∀ target origin body, (loader target origin).content = .ok body →
    ∃ text, texts (loader target origin).name = some text ∧ Source.parse text = .ok body

/-- The text of the unit of a name: the main source, or else what is read. -/
def unitText (main source : Text) (texts : Text → Option Text) (name : Text) : Option Text :=
  if name = main then some source else texts name

/-- The expressions of the unit of a name. -/
def unitBody (main source : Text) (texts : Text → Option Text) (name : Text) :
    Except Failure (List Node) :=
  match unitText main source texts name with
  | some text => Source.parse text
  | none => .error (.trouble (.unitNotFound name))

/-- An expression that is written in the text of a unit. -/
def Node.WrittenAt (texts : Text → Option Text) (file : Text) (node : Node) : Prop :=
  ∃ text unit, texts file = some text ∧ Source.parse text = .ok unit ∧
    node.statements ⊆ Node.bodyStatements unit

/-- The statements of an expression stand in the text of its unit. -/
theorem Node.WrittenAt.exists_standsIn {texts : Text → Option Text} {file : Text} {node : Node}
    (h : node.WrittenAt texts file) :
    ∃ text, texts file = some text ∧ ∀ statement ∈ node.statements, statement.StandsIn text := by
  obtain ⟨text, unit, htext, hparse, hsubset⟩ := h
  exact ⟨text, htext, fun statement hmem => Source.standsIn_of_parse hparse (hsubset hmem)⟩

namespace Expansion

variable {setup : Setup} {texts : Text → Option Text} {main source : Text} {body : List Node}
  {frame : Frame}

/-- A loader that reads from texts gives the units of these texts. -/
theorem loadsFrom_of_readsFrom {loader : Loader} (h : Loader.ReadsFrom loader texts)
    (main source : Text) : LoadsFrom loader (unitBody main source texts) main := by
  intro target origin unit hload hmain
  obtain ⟨text, htext, hparse⟩ := h target origin unit hload
  simp only [unitBody, unitText, if_neg hmain, htext, hparse]

/-- The main unit has the body of its source. -/
theorem unitBody_main (hparse : Source.parse source = .ok body) :
    unitBody main source texts main = .ok body := by
  simp only [unitBody, unitText, if_pos, hparse]

/-- An expression that was written in a unit was written in its text. -/
theorem writtenAt_of_written {file : Text} {node : Node}
    (h : Written (unitBody main source texts) file node) :
    node.WrittenAt (unitText main source texts) file := by
  obtain ⟨unit, hunit, hsubset⟩ := h
  unfold unitBody at hunit
  split at hunit
  case h_1 text htext => exact ⟨text, unit, htext, hunit, hsubset⟩
  case h_2 => cases hunit

/-- The number that a visit has for the parse of its expression is the place of its unit among the units
read. -/
theorem files_of_parse (hreads : Loader.ReadsFrom setup.loader texts)
    (hparse : Source.parse source = .ok body) (h : Reached setup main body frame) :
    ∀ visit ∈ frame.state.visits, frame.state.files[visit.parse]? = some visit.file :=
  (traced_of_reached (loadsFrom_of_readsFrom hreads main source) (unitBody_main hparse) h).1.visits

/-- The expressions at a point reached are written in the texts of their units. -/
theorem writtenAt_of_reached (hreads : Loader.ReadsFrom setup.loader texts)
    (hparse : Source.parse source = .ok body) (h : Reached setup main body frame) :
    ∀ node ∈ frame.nodes, node.WrittenAt (unitText main source texts) frame.file := by
  intro node hnode
  have htraced := traced_of_reached (loadsFrom_of_readsFrom hreads main source)
    (unitBody_main hparse) h
  exact writtenAt_of_written (htraced.2 node hnode)

/-- So are those of the visits around it. -/
theorem writtenAt_of_mem_trail (hreads : Loader.ReadsFrom setup.loader texts)
    (hparse : Source.parse source = .ok body) (h : Reached setup main body frame) :
    ∀ visit ∈ frame.trail, visit.node.WrittenAt (unitText main source texts) visit.file := by
  -- A visit that comes around a point was recorded by the step at the point before.
  have hrecord {trail : List Visit} {file : Text} {node : Node} {state : State} {outcome : Step}
      (hnode : node.WrittenAt (unitText main source texts) file)
      (hstep : stepAt setup trail file node state = outcome) :
      outcome.record.node.WrittenAt (unitText main source texts) outcome.record.file := by
    have hacts := acts_of_stepAt hstep
    rwa [hacts.record_node, hacts.record_file]
  induction h with
  | refl => exact fun _ hvisit => absurd hvisit List.not_mem_nil
  | tail hbefore hleads ih =>
    have hnodes := writtenAt_of_reached hreads hparse hbefore
    cases hleads with
    | next => exact ih
    | enter entered =>
      exact List.forall_mem_cons.mpr ⟨hrecord (hnodes _ List.mem_cons_self) entered, ih⟩
    | unit begun =>
      exact List.forall_mem_cons.mpr ⟨hrecord (hnodes _ List.mem_cons_self) begun, ih⟩

end Expansion

/-- The text of a file of a library. -/
def Library.text? (library : Library) (name : Text) : Option Text :=
  match library.find? name with
  | some (.file contents) => some contents
  | _ => none

/-- A library loads its files. -/
theorem Library.readsFrom (library : Library) : Loader.ReadsFrom library.loader library.text? := by
  intro target origin body hload
  obtain ⟨entry, hfound, hparse⟩ := exists_find?_of_loader hload
  cases entry with
  | file contents => exact ⟨contents, by rw [text?, hfound], hparse⟩
  | directory => cases hparse

/-- The text of a file that a path from the root leads to. -/
def Disk.text? (disk : Disk) (path : Text) : Option Text :=
  if Path.isAbsolute path then (disk.read path).toOption else none

/-- The name of a unit that is found is a path from the root. -/
theorem Disk.Rooted.isAbsolute_name (h : disk.Rooted) {search : List Text}
    {target origin unit : Text} {body : List Node}
    (hloaded : disk.loader search target origin = ⟨unit, .ok body⟩) :
    Path.isAbsolute unit = true := by
  unfold loader at hloaded
  split at hloaded
  case h_1 path _ =>
    obtain ⟨rfl, _⟩ := Loaded.mk.inj hloaded
    rw [absolute_eq h.working_named]
    rfl
  case h_2 => cases hloaded

/-- A disk loads its files. -/
theorem Disk.Rooted.readsFrom (h : disk.Rooted) (search : List Text) :
    Loader.ReadsFrom (disk.loader search) disk.text? := by
  intro target origin body hload
  cases hloaded : disk.loader search target origin with
  | mk unit content =>
    obtain rfl : content = .ok body := by rwa [hloaded] at hload
    obtain ⟨contents, hread, hparse⟩ := h.loader_eq (h.name_ne_nil hloaded) hloaded
    refine ⟨contents, ?_, hparse.symm⟩
    rw [text?, if_pos (h.isAbsolute_name hloaded), hread]
    rfl

/-- The locator of a unit with a text leads back to its name. -/
theorem Uri.path_ofPath_of_unitText {uri source file text : Text}
    (h : unitText (Uri.path uri) source disk.text? file = some text) :
    Uri.path (Uri.ofPath file) = file := by
  unfold unitText at h
  split at h
  case isTrue hmain => rw [hmain, path_ofPath_path]
  case isFalse =>
    unfold Disk.text? at h
    split at h
    case isTrue habsolute => exact path_ofPath habsolute
    case isFalse => cases h

end Tapestry

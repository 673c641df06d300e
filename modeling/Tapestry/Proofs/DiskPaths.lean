import Mathlib.Data.List.Induction
import Tapestry.File.Disk
import Tapestry.Proofs.SourceStatements

/-!
# Places and paths

By its text a path names one place. Where a path leads to, the place it names is, since no
directory is entered but by its name. So whatever can be found under a path is also found under its
absolute form.

A disk is rooted if everything on it stands in a directory. Making directories keeps that, and
changes nothing else.
-/

namespace Tapestry

namespace Path

/-- A name that an entry of a directory may have. -/
def IsName (name : Text) : Prop :=
  name ≠ [] ∧ slash ∉ name ∧ name ≠ Text.ofString "." ∧ name ≠ Text.ofString ".."

instance (name : Text) : Decidable (IsName name) :=
  inferInstanceAs (Decidable (name ≠ [] ∧ slash ∉ name ∧ name ≠ Text.ofString "." ∧
    name ≠ Text.ofString ".."))

/-- A slash divides the elements of a path. -/
theorem elements_append (front rest : Text) :
    elements (front ++ slash :: rest) = elements front ++ elements rest := by
  have hsplit := List.splitOnP_append_cons (p := (· == slash)) front rest (BEq.rfl : (slash == slash) = true)
  rw [elements, List.splitOn, hsplit, List.filter_append]
  rfl

/-- A slash in front adds no element. -/
theorem elements_cons_slash (path : Text) : elements (slash :: path) = elements path :=
  elements_append [] path

/-- Elements have bytes, and no slash is among them. -/
theorem of_mem_elements {path element : Text} (h : element ∈ elements path) :
    element ≠ [] ∧ slash ∉ element := by
  obtain ⟨hmem, hnonempty⟩ := List.mem_filter.mp h
  refine ⟨by simpa using hnonempty, fun hslash => ?_⟩
  obtain ⟨_, hfalse⟩ := Source.of_mem_splitOnP hmem hslash
  simp at hfalse

/-- Names are the elements of the path that joins them. -/
theorem elements_join {names : List Text} (h : ∀ name ∈ names, IsName name) :
    elements (Text.join "/" names) = names := by
  cases names with
  | nil => rfl
  | cons first rest =>
    have hsplit : (Text.join "/" (first :: rest)).splitOn slash = first :: rest :=
      List.splitOn_intercalate slash (fun name hname => (h name hname).2.1) (List.cons_ne_nil _ _)
    rw [elements, hsplit, List.filter_eq_self]
    intro name hname
    simpa using (h name hname).1

end Path

namespace Place

variable {place : Place} {elements : List Text}

/-- Go on by one path element, by the text alone. -/
def go (place : Place) (element : Text) : Place :=
  if element = Text.ofString "." then place
  else if element = Text.ofString ".." then place.dropLast
  else place ++ [element]

/-- The names of a place could be names of entries. -/
def Named (place : Place) : Prop := ∀ name ∈ place, Path.IsName name

/-- A place is named without its last element. -/
theorem Named.dropLast (h : place.Named) : Named place.dropLast :=
  fun name hname => h name (List.dropLast_subset place hname)

/-- A path element leads from a named place to another. -/
theorem Named.go (h : place.Named) {element : Text}
    (helement : element ≠ [] ∧ Path.slash ∉ element) :
    (place.go element).Named := by
  unfold Place.go
  split
  case isTrue => exact h
  case isFalse hdot =>
    split
    case isTrue => exact h.dropLast
    case isFalse hdots =>
      intro name hname
      rcases List.mem_append.mp hname with hmem | hmem
      · exact h name hmem
      · obtain rfl := List.mem_singleton.mp hmem
        exact ⟨helement.1, helement.2, hdot, hdots⟩

/-- Going along elements leads to a place that is named. -/
theorem Named.foldl_go (h : place.Named)
    (helements : ∀ element ∈ elements, element ≠ [] ∧ Path.slash ∉ element) :
    (elements.foldl Place.go place).Named := by
  induction elements generalizing place with
  | nil => exact h
  | cons element rest ih =>
    obtain ⟨helement, hrest⟩ := List.forall_mem_cons.mp helements
    exact ih (h.go helement) hrest

/-- Names lead down. -/
theorem foldl_go_of_named {names : Place} (h : names.Named) :
    names.foldl Place.go place = place ++ names := by
  induction names generalizing place with
  | nil => rw [List.foldl_nil, List.append_nil]
  | cons name rest ih =>
    obtain ⟨hname, hrest⟩ := List.forall_mem_cons.mp h
    rw [List.foldl_cons, ih hrest, Place.go, if_neg hname.2.2.1, if_neg hname.2.2.2]
    simp

/-- Cleaning goes on by one element from a rooted path. -/
theorem descend_reverse (h : place.Named) (element : Text) :
    Path.descend true place.reverse element = (place.go element).reverse := by
  unfold Path.descend go
  split
  case isTrue => rfl
  case isFalse =>
    split
    case isTrue =>
      rcases List.eq_nil_or_concat place with rfl | ⟨front, last, rfl⟩
      · rfl
      · have hlast : last ≠ Text.ofString ".." := (h last (by simp)).2.2.2
        simp [hlast]
    case isFalse => simp

/-- Going along elements is descending from a place, read from the end. -/
theorem foldl_descend_reverse (h : place.Named)
    (helements : ∀ element ∈ elements, element ≠ [] ∧ Path.slash ∉ element) :
    elements.foldl (Path.descend true) place.reverse = (elements.foldl go place).reverse := by
  induction elements generalizing place with
  | nil => rfl
  | cons element rest ih =>
    obtain ⟨helement, hrest⟩ := List.forall_mem_cons.mp helements
    rw [List.foldl_cons, List.foldl_cons, descend_reverse h, ih (h.go helement) hrest]

/-- The elements of the path of a place are the place. -/
theorem elements_path (h : place.Named) : Path.elements place.path = place := by
  rw [path, Path.elements_cons_slash, Path.elements_join h]

/-- A path from the root is cleaned by going along its elements. -/
theorem clean_eq {path : Text} (h : Path.isAbsolute path = true) :
    Path.clean path = ((Path.elements path).foldl go []).path := by
  have hroot : Named [] := fun _ hname => absurd hname List.not_mem_nil
  have hfold := foldl_descend_reverse hroot fun element (_ : element ∈ Path.elements path) =>
    Path.of_mem_elements ‹_›
  rw [List.reverse_nil] at hfold
  simp only [Path.clean, h, hfold, List.reverse_reverse, if_true]
  rfl

/-- The path of a place does not end in a slash, unless it is the root. -/
theorem getLast?_path (h : place.Named) (hplace : place ≠ []) :
    place.path.getLast? ≠ some Path.slash := by
  obtain ⟨front, last, rfl⟩ := (List.eq_nil_or_concat place).resolve_left hplace
  rw [List.concat_eq_append] at h ⊢
  have hlast : Path.IsName last := h last (by simp)
  obtain ⟨before, hjoin⟩ : ∃ before, Text.join "/" (front ++ [last]) = before ++ last := by
    induction front with
    | nil => exact ⟨[], by simp [Text.join]⟩
    | cons name rest ih =>
      obtain ⟨before, hbefore⟩ := ih (fun other hother => h other (List.mem_cons_of_mem _ hother)) (by simp)
      refine ⟨name ++ Text.ofString "/" ++ before, ?_⟩
      rw [Text.join] at hbefore ⊢
      rw [List.cons_append, List.intercalate_cons_of_ne_nil (by simp), hbefore]
      simp
  intro hslash
  rw [path, hjoin, ← List.cons_append, List.getLast?_append, List.getLast?_eq_some_getLast hlast.1,
    Option.some_or, Option.some.injEq] at hslash
  exact hlast.2.1 (hslash ▸ List.getLast_mem hlast.1)

end Place

namespace Disk

variable {disk other : Disk} {path element contents : Text} {place : Place} {entry : DiskEntry}

/-! ## Where paths lead -/

/-- Only a directory is left, to where the text says. -/
theorem follow_eq_ok_iff {next : Place} :
    disk.follow place element = .ok next ↔
      disk.entry? place = some .directory ∧ place.go element = next := by
  unfold follow Place.go
  cases hentry : disk.entry? place with
  | none => simp
  | some entry =>
    cases entry with
    | file contents => simp
    | directory =>
      by_cases hdot : element = Text.ofString "."
      · simp [hdot]
      · by_cases hdots : element = Text.ofString ".."
        · simp only [if_neg hdot, if_pos hdots, Except.ok.injEq, true_and]
        · simp only [if_neg hdot, if_neg hdots, Except.ok.injEq, true_and]

/-- Elements are followed one by one. -/
theorem foldlM_follow_eq {elements : List Text} {last : Place}
    (h : elements.foldlM disk.follow place = .ok last) : elements.foldl Place.go place = last := by
  induction elements generalizing place with
  | nil => exact Except.ok.inj h
  | cons element rest ih =>
    rw [List.foldlM_cons] at h
    obtain ⟨next, hnext, hrest⟩ := exists_of_bind_eq_ok h
    obtain ⟨_, rfl⟩ := follow_eq_ok_iff.mp hnext
    exact ih hrest

/-- Where relative and absolute paths start. -/
def start (disk : Disk) (path : Text) : Place := if Path.isAbsolute path then [] else disk.working

/-- A path starts at a place that is named. -/
theorem named_start (h : disk.working.Named) (path : Text) : (disk.start path).Named := by
  unfold start
  split
  · exact fun _ hname => absurd hname List.not_mem_nil
  · exact h

/-- The place that a path names by its text is where its elements lead. -/
theorem absolute_eq (h : disk.working.Named) (path : Text) :
    disk.absolute path = ((Path.elements path).foldl Place.go (disk.start path)).path := by
  unfold absolute Path.absolute start
  cases habsolute : Path.isAbsolute path with
  | true =>
    rw [if_pos rfl, if_pos rfl]
    exact Place.clean_eq habsolute
  | false =>
    have helements : Path.elements (disk.working.path ++ [Path.slash] ++ path) =
        disk.working ++ Path.elements path := by
      rw [List.append_assoc, List.singleton_append, Path.elements_append, Place.elements_path h]
    rw [if_neg Bool.false_ne_true, if_neg Bool.false_ne_true, Path.join,
      if_neg (show ¬ disk.working.path.isEmpty = true from Bool.false_ne_true),
      Place.clean_eq (by rfl), helements, List.foldl_append, Place.foldl_go_of_named h,
      List.nil_append]

/-- A path leads to a place that is named. -/
theorem named_along (h : disk.working.Named) (path : Text) :
    ((Path.elements path).foldl Place.go (disk.start path)).Named :=
  (named_start h path).foldl_go fun _ => Path.of_mem_elements

/-- The place of a path is found by going along its elements. -/
theorem placeOf_eq (h : disk.working.Named) (path : Text) :
    disk.placeOf path = (Path.elements path).foldl Place.go (disk.start path) := by
  rw [placeOf, absolute_eq h, Place.elements_path (named_along h path)]

/-- The place of a path is named. -/
theorem named_placeOf (h : disk.working.Named) (path : Text) : (disk.placeOf path).Named :=
  placeOf_eq h path ▸ named_along h path

/-- The path of the place of a path is the absolute path. -/
theorem path_placeOf (h : disk.working.Named) (path : Text) :
    (disk.placeOf path).path = disk.absolute path := by
  rw [placeOf_eq h, absolute_eq h]

/-- Absolute paths depend on the working directory alone. -/
theorem absolute_congr (h : other.working = disk.working) (path : Text) :
    other.absolute path = disk.absolute path := by
  rw [absolute, absolute, h]

/-- The place of a path depends on the working directory only. -/
theorem placeOf_congr (h : other.working = disk.working) (path : Text) :
    other.placeOf path = disk.placeOf path := by
  rw [placeOf, placeOf, absolute_congr h]

/-- A path is followed along its elements. -/
theorem foldlM_follow_of_locate (h : disk.locate path = .ok place) :
    (Path.elements path).foldlM disk.follow (disk.start path) = .ok place := by
  unfold locate at h
  split at h
  case isTrue => cases h
  case isFalse =>
    obtain ⟨last, hlast, hend⟩ := exists_of_bind_eq_ok h
    split at hend
    case isTrue =>
      obtain rfl : last = place := (follow_eq_ok_iff.mp hend).2
      exact hlast
    case isFalse =>
      cases hend
      exact hlast

/-- A path leads nowhere but to the place that its text names. -/
theorem placeOf_eq_of_locate (hworking : disk.working.Named) (h : disk.locate path = .ok place) :
    disk.placeOf path = place :=
  (placeOf_eq hworking path).trans (foldlM_follow_eq (foldlM_follow_of_locate h))

/-! ## Rooted disks -/

/-- Everything on a disk stands in a directory under a name, and so does the working directory. -/
structure Rooted (disk : Disk) : Prop where
  working : disk.entry? disk.working = some .directory
  above : ∀ place entry, disk.entry? place = some entry →
    disk.entry? place.dropLast = some .directory
  named : ∀ place entry, disk.entry? place = some entry → place.Named

/-- The working directory of a disk in order is named. -/
theorem Rooted.working_named (h : disk.Rooted) : disk.working.Named := h.named _ _ h.working

/-- But for the root, what is at a place is what the disk has there. -/
theorem entry?_of_ne_nil (hplace : place ≠ []) : disk.entry? place = disk.entries.lookup place :=
  if_neg (by simpa using hplace)

/-- It is enough to look at the entries. -/
theorem rooted_of_entries (hworking : disk.entry? disk.working = some .directory)
    (hentries : ∀ item ∈ disk.entries, disk.entry? item.1.dropLast = some .directory ∧
      ∀ name ∈ item.1, Path.IsName name) : disk.Rooted := by
  have hitem {place : Place} {entry : DiskEntry} (h : disk.entry? place = some entry) :
      place = [] ∨ (place, entry) ∈ disk.entries := by
    by_cases hplace : place = []
    · exact .inl hplace
    · rw [entry?_of_ne_nil hplace] at h
      obtain ⟨before, after, hsplit, _⟩ := List.lookup_eq_some_iff.mp h
      exact .inr (hsplit ▸ by simp)
  refine ⟨hworking, fun place entry h => ?_, fun place entry h => ?_⟩
  · rcases hitem h with rfl | hmem
    · rfl
    · exact (hentries _ hmem).1
  · rcases hitem h with rfl | hmem
    · exact fun _ hname => absurd hname List.not_mem_nil
    · exact (hentries _ hmem).2

/-- Everything is found under the path of its place. -/
theorem Rooted.foldlM_follow (h : disk.Rooted) (hentry : disk.entry? place = some entry) :
    place.foldlM disk.follow [] = .ok place := by
  induction place using List.reverseRecOn generalizing entry with
  | nil => rfl
  | append_singleton front name ih =>
    have hfront : disk.entry? front = some .directory := by
      simpa using h.above _ _ hentry
    have hname : Path.IsName name := h.named _ _ hentry name (by simp)
    have hgo : Place.go front name = front ++ [name] := by
      rw [Place.go, if_neg hname.2.2.1, if_neg hname.2.2.2]
    rw [List.foldlM_append, ih hfront]
    exact (bind_pure _).trans (follow_eq_ok_iff.mpr ⟨hfront, hgo⟩)

/-- In a disk in order, the path of a place leads to it. -/
theorem Rooted.locate_path (h : disk.Rooted) (hentry : disk.entry? place = some entry) :
    disk.locate place.path = .ok place := by
  have hnamed := h.named _ _ hentry
  have hfollow : (Path.elements place.path).foldlM disk.follow [] = .ok place := by
    rw [Place.elements_path hnamed]
    exact h.foldlM_follow hentry
  have hslash : (if place.path.getLast? = some Path.slash then disk.follow place "." else .ok place) =
      .ok place := by
    split
    case isTrue hlast =>
      have hroot : place = [] := Classical.not_not.mp fun hne => Place.getLast?_path hnamed hne hlast
      rw [hroot]
      rfl
    case isFalse => rfl
  have hlocate : disk.locate place.path = ((Path.elements place.path).foldlM disk.follow []).bind
      fun place' => if place.path.getLast? = some Path.slash then disk.follow place' "." else .ok place' :=
    rfl
  rw [hlocate, hfollow]
  exact hslash

/-- What is found under a path is found under its absolute form. -/
theorem Rooted.find_absolute (h : disk.Rooted) (hfind : disk.find path = .ok entry) :
    disk.find (disk.absolute path) = .ok entry := by
  obtain ⟨place, hlocate, hentry⟩ := exists_of_bind_eq_ok hfind
  cases hplace : disk.entry? place with
  | none =>
    rw [hplace] at hentry
    cases hentry
  | some found =>
    have hpath : place.path = disk.absolute path := by
      rw [← path_placeOf h.working_named, placeOf_eq_of_locate h.working_named hlocate]
    have habsolute : disk.locate (disk.absolute path) = .ok place := hpath ▸ h.locate_path hplace
    rw [find, habsolute]
    exact hentry

/-- A path can be read just if it leads to a file. -/
theorem read_eq_ok_iff : disk.read path = .ok contents ↔ disk.find path = .ok (.file contents) := by
  unfold read
  split <;> simp_all

/-- In a disk in order, what can be read can be read by its absolute path. -/
theorem Rooted.read_absolute (h : disk.Rooted) (hread : disk.read path = .ok contents) :
    disk.read (disk.absolute path) = .ok contents :=
  read_eq_ok_iff.mpr (h.find_absolute (read_eq_ok_iff.mp hread))

/-! ## Changes that keep a disk rooted -/

/-- What is put at a place is there, and the other places are as they were. -/
theorem entry?_insert (hplace : place ≠ []) (other : Place) :
    Disk.entry? (disk.insert place entry) other =
      if other = place then some entry else disk.entry? other := by
  by_cases hroot : other = []
  · rw [hroot, if_neg hplace.symm]
    rfl
  · rw [entry?_of_ne_nil hroot, entry?_of_ne_nil hroot, insert, List.lookup_cons]
    by_cases hother : other = place
    · simp [hother]
    · rw [beq_false_of_ne hother, if_neg hother]
      exact lookup_filter_ne hother

/-- An entry may be put into a directory, but nothing else in place of a directory. -/
theorem Rooted.insert (h : disk.Rooted) (hplace : place ≠ []) (hnamed : place.Named)
    (habove : disk.entry? place.dropLast = some .directory)
    (hover : disk.entry? place = some .directory → entry = .directory) :
    (disk.insert place entry).Rooted := by
  -- A directory stays one.
  have hkept (other : Place) (hother : disk.entry? other = some .directory) :
      Disk.entry? (disk.insert place entry) other = some .directory := by
    rw [entry?_insert hplace]
    split
    case isTrue heq => rw [hover (heq ▸ hother)]
    case isFalse => exact hother
  refine ⟨hkept _ h.working, fun other found hfound => hkept _ ?_, fun other found hfound => ?_⟩
  · rw [entry?_insert hplace] at hfound
    split at hfound
    case isTrue heq => exact heq ▸ habove
    case isFalse => exact h.above _ _ hfound
  · rw [entry?_insert hplace] at hfound
    split at hfound
    case isTrue heq => exact heq ▸ hnamed
    case isFalse => exact h.named _ _ hfound

/-- A path that leads to nothing leads into a directory. -/
theorem Rooted.above_of_locate (h : disk.Rooted) (hlocate : disk.locate path = .ok place)
    (hmissing : disk.entry? place = none) :
    place ≠ [] ∧ place.Named ∧ disk.entry? place.dropLast = some .directory := by
  refine ⟨?_, ?_, ?_⟩
  · rintro rfl
    cases hmissing
  · rw [← placeOf_eq_of_locate h.working_named hlocate]
    exact named_placeOf h.working_named path
  · have hstart : disk.entry? (disk.start path) = some .directory := by
      unfold start
      split
      · rfl
      · exact h.working
    have hfollow := foldlM_follow_of_locate hlocate
    rcases List.eq_nil_or_concat (Path.elements path) with hnil | ⟨front, last, hlast⟩
    · rw [hnil] at hfollow
      cases hfollow
      cases hmissing.symm.trans hstart
    · rw [hlast, List.concat_eq_append, List.foldlM_append] at hfollow
      obtain ⟨before, _, hbefore⟩ := exists_of_bind_eq_ok hfollow
      obtain ⟨hdirectory, rfl⟩ := follow_eq_ok_iff.mp ((bind_pure _).symm.trans hbefore)
      -- Only an element that is a name leads to something that may be missing.
      unfold Place.go at hmissing ⊢
      split at hmissing
      case isTrue => cases hmissing.symm.trans hdirectory
      case isFalse hdot =>
        split at hmissing
        case isTrue => cases hmissing.symm.trans (h.above _ _ hdirectory)
        case isFalse hdots =>
          rw [if_neg hdot, if_neg hdots, List.dropLast_concat]
          exact hdirectory

/-- A disk is another one with more directories. -/
structure Furnished (disk other : Disk) : Prop where
  working : other.working = disk.working
  entries : ∀ place, other.entry? place = disk.entry? place ∨
    disk.entry? place = none ∧ other.entry? place = some .directory

/-- Directories that are made in turn are made. -/
theorem Furnished.trans {first second third : Disk} (h : Furnished first second)
    (hthen : Furnished second third) : Furnished first third := by
  refine ⟨hthen.working.trans h.working, fun place => ?_⟩
  rcases h.entries place with hsame | ⟨hnone, hmade⟩
  · rw [← hsame]
    exact hthen.entries place
  · rcases hthen.entries place with hsame | ⟨hmissing, _⟩
    · exact .inr ⟨hnone, hsame.trans hmade⟩
    · cases hmissing.symm.trans hmade

/-- Where a path leads, a directory may be made. -/
theorem Rooted.ensureDirectory (h : disk.Rooted) (hlocate : disk.locate path = .ok place) :
    (disk.ensureDirectory place).Rooted ∧ Furnished disk (disk.ensureDirectory place) := by
  unfold Disk.ensureDirectory
  cases hentry : disk.entry? place with
  | some entry => exact ⟨h, rfl, fun _ => .inl rfl⟩
  | none =>
    obtain ⟨hplace, hnamed, habove⟩ := h.above_of_locate hlocate hentry
    refine ⟨h.insert hplace hnamed habove fun _ => rfl, rfl, fun other => ?_⟩
    rw [if_neg (by simp), entry?_insert hplace]
    by_cases hother : other = place
    · exact .inr ⟨hother ▸ hentry, if_pos hother⟩
    · exact .inl (if_neg hother)

/-- Making directories keeps a disk rooted and does nothing else. -/
theorem Rooted.makeDirectories (h : disk.Rooted) {made : Disk}
    (hmade : disk.makeDirectories path = .ok made) : made.Rooted ∧ Furnished disk made := by
  unfold Disk.makeDirectories at hmade
  generalize ancestors path = steps at hmade
  induction steps generalizing disk with
  | nil =>
    cases hmade
    exact ⟨h, rfl, fun _ => .inl rfl⟩
  | cons step rest ih =>
    rw [List.foldlM_cons] at hmade
    obtain ⟨next, hnext, hrest⟩ := exists_of_bind_eq_ok hmade
    split at hnext
    case h_1 => cases hnext
    case h_2 place hlocate =>
      split at hnext
      case h_1 => cases hnext
      case h_2 =>
        cases hnext
        obtain ⟨hrooted, hfurnished⟩ := h.ensureDirectory hlocate
        obtain ⟨hlast, hthen⟩ := ih hrooted hrest
        exact ⟨hlast, hfurnished.trans hthen⟩

end Disk

end Tapestry

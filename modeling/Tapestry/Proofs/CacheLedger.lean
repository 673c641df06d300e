import Mathlib.Logic.Function.Basic
import Tapestry.Proofs.CacheEntries
import Tapestry.Proofs.FileDatabases
import Tapestry.Proofs.StoredImages

/-!
# The cache as a ledger

A ledger has, for every name, the last image that was put under it and not dropped since, with the
files it came with and the disk as it was then. Whatever has been asked of a store, and whatever has
happened to other files meanwhile, the rows that its database shows are those of its ledger. So the
answers of the store are given by the ledger and the disk as it is now.

An image that cannot be put in leaves the rows and the ledger as they were, although its statements
may have been carried out in part.
-/

namespace Tapestry

/-- An image that was put into a cache, the files it came with, and the disk as it was. -/
structure Deposit where
  image : Image
  files : List Text
  disk : Disk

/-- The deposit under each name, if there is one. -/
abbrev Ledger := Text → Option Deposit

namespace Deposit

variable {deposit : Deposit} {disk : Disk} {dependencies : List Dependency}
  {dependency : Dependency}

/-- A file of the deposit cannot be read any more, or has another digest. -/
def Changed (deposit : Deposit) (disk : Disk) (file : Text) : Prop :=
  file ∈ deposit.files ∧ disk.digest file ≠ deposit.disk.digest file

/-- A file has changed, and none before it. -/
def FirstChanged (deposit : Deposit) (disk : Disk) (file : Text) : Prop :=
  deposit.Changed disk file ∧ ∀ other, deposit.Changed disk other → file ≤ other

/-- The files of the deposit with the digests they had, in order. -/
structure Recorded (deposit : Deposit) (dependencies : List Dependency) : Prop where
  ordered : (dependencies.map Dependency.file).Pairwise (· < ·)
  mem_iff : ∀ dependency, dependency ∈ dependencies ↔ dependency.file ∈ deposit.files ∧
    deposit.disk.digest dependency.file = .ok dependency.digest
  readable : ∀ file ∈ deposit.files, ∃ digest, deposit.disk.digest file = .ok digest

/-- An entry of the cache is that of the deposit. -/
structure ListedAs [Image.Codec] (deposit : Deposit) (entry : CacheEntry) : Prop where
  buildId : entry.buildId = deposit.image.buildId
  created : entry.created = deposit.image.created
  size : ∃ bytes, deposit.image.write = .ok bytes ∧ entry.size = bytes.length
  dependencies : deposit.Recorded entry.dependencies

/-- A file that was recorded has changed just if it is not what it was. -/
theorem Recorded.changed_iff (h : deposit.Recorded dependencies) (hmem : dependency ∈ dependencies) :
    deposit.Changed disk dependency.file ↔ disk.isFresh dependency = false := by
  obtain ⟨hfile, hdigest⟩ := (h.mem_iff dependency).mp hmem
  rw [Changed, hdigest, ← Bool.not_eq_true, Disk.isFresh_iff]
  exact and_iff_right hfile

/-- Every file of the deposit was recorded. -/
theorem Recorded.exists_of_mem (h : deposit.Recorded dependencies) {file : Text}
    (hfile : file ∈ deposit.files) :
    ∃ dependency ∈ dependencies, dependency.file = file := by
  obtain ⟨digest, hdigest⟩ := h.readable file hfile
  exact ⟨⟨file, digest⟩, (h.mem_iff _).mpr ⟨hfile, hdigest⟩, rfl⟩

/-- The first file that is not what it was is the first that has changed. -/
theorem Recorded.firstChanged (h : deposit.Recorded dependencies)
    (hfind : dependencies.find? (!disk.isFresh ·) = some dependency) :
    deposit.FirstChanged disk dependency.file := by
  obtain ⟨hstale, front, back, rfl, hfront⟩ := List.find?_eq_some_iff_append.mp hfind
  have hchanged : deposit.Changed disk dependency.file := by
    rw [h.changed_iff (List.mem_append_right _ List.mem_cons_self)]
    simpa using hstale
  refine ⟨hchanged, fun file hfile => ?_⟩
  obtain ⟨other, hmem, rfl⟩ := h.exists_of_mem hfile.1
  have hother := (h.changed_iff hmem).mp hfile
  rcases List.mem_append.mp hmem with hbefore | hafter
  · have := hfront other hbefore
    simp [hother] at this
  · rcases List.mem_cons.mp hafter with rfl | hbehind
    · exact Std.le_refl _
    · have hordered := h.ordered
      rw [List.map_append, List.map_cons, List.pairwise_append, List.pairwise_cons] at hordered
      exact Std.le_of_lt (hordered.2.1.1 _ (List.mem_map_of_mem hbehind))

end Deposit

/-! ## Tables with a ledger -/

namespace Tables

variable {tables after : Tables} {disk : Disk} {name other bytes : Text} {deposit : Deposit}
  {found : List Dependency}

/-- The tables have the same under a name. -/
def SameAt (tables after : Tables) (name : Text) : Prop :=
  after.find? name = tables.find? name ∧ after.filesOf name = tables.filesOf name

/-- The files in order are the same if the files are. -/
theorem SameAt.dependenciesOf (h : tables.SameAt after name) :
    after.dependenciesOf name = tables.dependenciesOf name := by
  rw [Tables.dependenciesOf, h.2, Tables.dependenciesOf]

/-- An image that is put in leaves what is under other names. -/
theorem sameAt_replace {row : ImageRow} (h : other ≠ row.name) :
    tables.SameAt (tables.replace row found) other :=
  ⟨find?_replace.trans (if_neg h), filesOf_replace.trans (if_neg h)⟩

/-- Dropping an entry leaves what is under other names. -/
theorem sameAt_drop (h : other ≠ name) : tables.SameAt (tables.drop name) other :=
  ⟨find?_drop.trans (if_neg h), filesOf_drop.trans (if_neg h)⟩

/-- An entry is listed just if its image and its files are there. -/
theorem Distinct.mem_listed (h : tables.Distinct) {entry : CacheEntry} :
    entry ∈ tables.listed ↔ ∃ row, tables.find? entry.name = some row ∧
      entry.toImageSummary = row.summary ∧ entry.dependencies = tables.dependenciesOf entry.name := by
  simp only [listed, List.mem_map, mem_ordered, h.find?_eq_some_iff]
  constructor
  · rintro ⟨row, hrow, rfl⟩
    exact ⟨row, ⟨hrow, rfl⟩, rfl, rfl⟩
  · rintro ⟨row, ⟨hrow, hname⟩, hsummary, hdependencies⟩
    refine ⟨row, hrow, ?_⟩
    rw [hname, ← hdependencies, ← hsummary]

/-- The entries are in strictly ascending order of their names. -/
theorem Distinct.pairwise_listed (h : tables.Distinct) :
    (tables.listed.map fun entry => entry.name).Pairwise (· < ·) := by
  have hordered := h.pairwise_ordered
  rwa [listed, List.map_map]

variable [Image.Codec]

/-- The tables have a deposit under a name. -/
structure Keeps (tables : Tables) (name : Text) (deposit : Deposit) : Prop where
  image : ∃ bytes, deposit.image.write = .ok bytes ∧
    tables.find? name = some (Store.rowOf name deposit.image bytes)
  distinct : deposit.files.Nodup
  files : ∃ found, deposit.disk.dependencies deposit.files = .ok found ∧
    (tables.filesOf name).Perm found

/-- The tables have under a name what the ledger has. -/
def Holds (tables : Tables) (name : Text) : Option Deposit → Prop
  | none => tables.find? name = none ∧ tables.filesOf name = []
  | some deposit => tables.Keeps name deposit

/-- What is held under a name is told by the image and the files there. -/
theorem Holds.congr {entry : Option Deposit} (h : tables.Holds name entry)
    (hsame : tables.SameAt after name) : after.Holds name entry := by
  obtain ⟨hfind, hfiles⟩ := hsame
  cases entry with
  | none => exact ⟨hfind.trans h.1, hfiles.trans h.2⟩
  | some deposit => exact ⟨hfind ▸ h.image, h.distinct, hfiles ▸ h.files⟩

/-- Answers are the same if the image and the files are. -/
theorem SameAt.answer (h : tables.SameAt after name) (disk : Disk) :
    after.answer disk name = tables.answer disk name := by
  rw [Tables.answer, h.1, h.dependenciesOf, Tables.answer]

/-- An image that is put in is there with its files. -/
theorem holds_replace (tables : Tables) (name : Text) {image : Image}
    (hwrite : image.write = .ok bytes) {files : List Text}
    (hfound : disk.dependencies files = .ok found) (hnodup : files.Nodup) :
    (tables.replace (Store.rowOf name image bytes) found).Holds name (some ⟨image, files, disk⟩) := by
  refine ⟨⟨bytes, hwrite, find?_replace.trans (if_pos rfl)⟩, hnodup, found, hfound, ?_⟩
  rw [filesOf_replace, if_pos (show name = (Store.rowOf name image bytes).name from rfl)]
  exact List.reverse_perm found

/-- Nothing is there under a name that was dropped. -/
theorem holds_drop (tables : Tables) (name : Text) : (tables.drop name).Holds name none :=
  ⟨find?_drop.trans (if_pos rfl), filesOf_drop.trans (if_pos rfl)⟩

/-- The files in order are those of the deposit with the digests they had. -/
theorem Keeps.recorded (h : tables.Keeps name deposit) : deposit.Recorded (tables.dependenciesOf name) := by
  obtain ⟨found, hfound, hperm⟩ := h.files
  have hfiles := Disk.files_of_dependencies hfound
  refine ⟨Text.pairwise_lt_mergeSort Dependency.file ?_, fun dependency => ?_, fun file hfile => ?_⟩
  · rw [(hperm.map Dependency.file).nodup_iff, hfiles]
    exact h.distinct
  · rw [dependenciesOf, List.mem_mergeSort, hperm.mem_iff, Disk.mem_dependencies hfound]
  · obtain ⟨digest, hdigest, _⟩ := Disk.exists_of_dependencies hfound file hfile
    exact ⟨digest, hdigest⟩

/-- A name without a deposit is not found. -/
theorem answer_of_holds_none (h : tables.Holds name none) : tables.answer disk name = .error .notFound := by
  rw [answer, h.1]

/-- The first file that has changed makes the image stale. -/
theorem Keeps.answer_of_changed (h : tables.Keeps name deposit) {file : Text}
    (hchanged : deposit.Changed disk file) :
    ∃ first, deposit.FirstChanged disk first ∧ tables.answer disk name = .error (.stale first) := by
  obtain ⟨bytes, -, hfind⟩ := h.image
  have hrecorded := h.recorded
  rw [answer, hfind]
  dsimp only
  cases hstale : (tables.dependenciesOf name).find? (!disk.isFresh ·) with
  | some dependency => exact ⟨dependency.file, hrecorded.firstChanged hstale, rfl⟩
  | none =>
    obtain ⟨dependency, hmem, rfl⟩ := hrecorded.exists_of_mem hchanged.1
    have hfresh := List.find?_eq_none.mp hstale dependency hmem
    rw [(hrecorded.changed_iff hmem).mp hchanged] at hfresh
    exact absurd rfl hfresh

/-- If no file has changed, the image is read from the bytes it was written in. -/
theorem Keeps.answer_of_unchanged (h : tables.Keeps name deposit)
    (hunchanged : ∀ file, ¬ deposit.Changed disk file) (hwrite : deposit.image.write = .ok bytes) :
    tables.answer disk name = (Image.read bytes).mapError .image := by
  obtain ⟨written, hwritten, hfind⟩ := h.image
  obtain rfl := Except.ok.inj (hwrite.symm.trans hwritten)
  rw [answer, hfind]
  dsimp only
  cases hstale : (tables.dependenciesOf name).find? (!disk.isFresh ·) with
  | some dependency => exact absurd (h.recorded.firstChanged hstale).1 (hunchanged dependency.file)
  | none => rfl

end Tables

/-- A list of entries has one for each name with a deposit, in the order of the names. -/
structure Ledger.Lists [Image.Codec] (ledger : Ledger) (listed : List CacheEntry) : Prop where
  ordered : (listed.map fun entry => entry.name).Pairwise (· < ·)
  live : ∀ name, (∃ entry ∈ listed, entry.name = name) ↔ ∃ deposit, ledger name = some deposit
  listedAs : ∀ entry ∈ listed, ∃ deposit, ledger entry.name = some deposit ∧ deposit.ListedAs entry

/-- Tables that hold what a ledger has list its deposits. -/
theorem Tables.lists_listed [Image.Codec] {tables : Tables} {ledger : Ledger} (hdistinct : tables.Distinct)
    (h : ∀ name, tables.Holds name (ledger name)) : ledger.Lists tables.listed := by
  have hlisted (entry : CacheEntry) (hentry : entry ∈ tables.listed) :
      ∃ deposit, ledger entry.name = some deposit ∧ deposit.ListedAs entry := by
    obtain ⟨row, hfind, hsummary, hdependencies⟩ := hdistinct.mem_listed.mp hentry
    have hholds := h entry.name
    cases hdeposit : ledger entry.name with
    | none =>
      rw [hdeposit] at hholds
      cases hfind.symm.trans hholds.1
    | some deposit =>
      rw [hdeposit] at hholds
      obtain ⟨bytes, hwrite, hrow⟩ := hholds.image
      obtain rfl := Option.some.inj (hfind.symm.trans hrow)
      refine ⟨deposit, rfl, congrArg ImageSummary.buildId hsummary, congrArg ImageSummary.created hsummary,
        ⟨bytes, hwrite, congrArg ImageSummary.size hsummary⟩, ?_⟩
      rw [hdependencies]
      exact Keeps.recorded hholds
  refine ⟨hdistinct.pairwise_listed, fun name => ⟨?_, ?_⟩, hlisted⟩
  · rintro ⟨entry, hentry, rfl⟩
    obtain ⟨deposit, hdeposit, _⟩ := hlisted entry hentry
    exact ⟨deposit, hdeposit⟩
  · rintro ⟨deposit, hdeposit⟩
    have hholds := h name
    rw [hdeposit] at hholds
    obtain ⟨bytes, -, hfind⟩ := hholds.image
    exact ⟨{ (Store.rowOf name deposit.image bytes).summary with
        dependencies := tables.dependenciesOf name },
      hdistinct.mem_listed.mpr ⟨_, hfind, rfl, rfl⟩, rfl⟩

namespace Store

open Database

/-! ## A store in use -/

/-- Files that can be read and are different are not refused, if the image can be written. -/
theorem not_refuses [Image.Codec] {disk : Disk} {image : Image} {files : List Text} {bytes : Text}
    {fault : CacheFault} (hwrite : image.write = .ok bytes) (hnodup : files.Nodup)
    (hreadable : ∀ file ∈ files, ∃ digest, disk.digest file = .ok digest) :
    ¬ Refuses disk image files fault := by
  rintro (⟨file, hfile, hfault⟩ | ⟨complaint, hfault, _⟩ | ⟨file, _, hcount, _⟩)
  · obtain ⟨digest, hdigest⟩ := hreadable file hfile
    cases hdigest.symm.trans hfault
  · cases hwrite.symm.trans hfault
  · have hsingle := List.nodup_iff_count_le_one.mp hnodup file
    omega

/-- What may happen to a store in use. -/
inductive Request where
  | put (name : Text) (image : Image) (files : List Text)
  | get (name : Text)
  | delete (name : Text)
  | entries
  /-- Something else changes the disk. -/
  | change (disk : Disk)

section Requests

variable [Database]

/-- A store, the disk, and the ledger of what was put into the store. -/
structure Use where
  store : Store
  disk : Disk
  ledger : Ledger

variable [Image.Codec]

/-- What a request leaves. The ledger has a new deposit, or one less, only if the request does not
fail. -/
def Use.next (use : Use) : Request → Use
  | .put name image files =>
    match use.store.put use.disk name image files with
    | (.ok (), store, disk) =>
      { store, disk, ledger := Function.update use.ledger name (some ⟨image, files, use.disk⟩) }
    | (.error _, store, disk) => { store, disk, ledger := use.ledger }
  | .delete name =>
    match use.store.delete use.disk name with
    | (.ok (), store, disk) => { store, disk, ledger := Function.update use.ledger name none }
    | (.error _, store, disk) => { store, disk, ledger := use.ledger }
  | .change disk => { use with disk }
  | .get _ | .entries => use

/-- A request leaves the files of the database alone, unless it is the store that changes them. -/
def Use.Spares (model : Model) (use : Use) : Request → Prop
  | .change disk => ∀ place, model.Owns (model.file use.store.connection) place →
      disk.entry? place = use.disk.entry? place
  | _ => True

/-- Requests in turn leave the files of the database alone. -/
def Use.SparesAll (model : Model) : Use → List Request → Prop
  | _, [] => True
  | use, request :: rest => use.Spares model request ∧ SparesAll model (use.next request) rest

variable {model : Model} {use after : Use} {store : Store} {disk : Disk} {rows : Tables}
  {name other : Text}

/-- What holds of a store in use: no two images are under one name, and the rows that its database
shows are those of the ledger. -/
structure Use.Settled (model : Model) (use : Use) (rows : Tables) : Prop where
  shows : Shows model True use.store use.disk ⟨rows, none⟩
  distinct : rows.Distinct
  holds : ∀ name, rows.Holds name (use.ledger name)

/-- An image that can be written is put in just if its files can be read and are different. -/
theorem Shows.put_ok_iff (h : Shows model True store disk ⟨rows, none⟩) (name : Text) {image : Image}
    {bytes : Text} (hwrite : image.write = .ok bytes) (files : List Text) :
    (store.put disk name image files).1 = .ok () ↔
      files.Nodup ∧ ∀ file ∈ files, ∃ digest, disk.digest file = .ok digest := by
  rcases h.put name image files with
    ⟨found, _, _, _, hfound, _, hnodup, hreply, _⟩ | ⟨fault, _, _, hrefuses, hreply, _⟩
  · rw [hreply]
    refine iff_of_true rfl ⟨hnodup, fun file hfile => ?_⟩
    obtain ⟨digest, hdigest, _⟩ := Disk.exists_of_dependencies hfound file hfile
    exact ⟨digest, hdigest⟩
  · rw [hreply]
    exact iff_of_false (fun hok => nomatch hok) fun hfiles =>
      not_refuses hwrite hfiles.1 hfiles.2 hrefuses

namespace Use

/-- A store that was opened with nothing in it. -/
def start (store : Store) (disk : Disk) : Use := ⟨store, disk, fun _ => none⟩

/-- A store is empty if there was no file at its place. -/
theorem settled_start {path : Text} {opened : Disk} (hrooted : disk.Rooted)
    (hunused : disk.entry? (disk.placeOf path) = none)
    (hopen : openAt disk path = (.ok store, opened)) : (start store opened).Settled model .empty := by
  have hopened : Opened model disk path store opened := opened_of_openAt hrooted hopen
  have hempty : model.stored disk (disk.placeOf path) = .empty :=
    model.stored_of_no_file fun contents hfile => nomatch hunused.symm.trans hfile
  have hview := hopened.shows.view_eq
  rw [hempty] at hview
  exact ⟨⟨hopened.shows.isOpen, hview, fun _ => ready_of_openAt hrooted hunused hopen⟩, List.nodup_nil,
    fun _ => ⟨rfl, rfl⟩⟩

/-- The rows and the ledger may change under one name, if they agree there. -/
theorem Settled.update (h : use.Settled model rows) {after : Tables} {entry : Option Deposit}
    {next : Store} {left : Disk} (hshows : Shows model True next left ⟨after, none⟩)
    (hdistinct : after.Distinct) (hentry : after.Holds name entry)
    (hsame : ∀ other, other ≠ name → rows.SameAt after other) :
    Settled model ⟨next, left, Function.update use.ledger name entry⟩ after := by
  refine ⟨hshows, hdistinct, fun other => ?_⟩
  change after.Holds other (Function.update use.ledger name entry other)
  by_cases hother : other = name
  · subst hother
    rwa [Function.update_self]
  · rw [Function.update_of_ne hother]
    exact (h.holds other).congr (hsame other hother)

/-- An image is put in with a deposit for it, or it is refused and rows and ledger are as before. -/
theorem Settled.next_put (h : use.Settled model rows) (name : Text) (image : Image) (files : List Text) :
    (∃ after, (use.store.put use.disk name image files).1 = .ok () ∧
        (∀ other, other ≠ name → rows.SameAt after other) ∧
          (use.next (.put name image files)).Settled model after) ∨
      ∃ fault, (use.store.put use.disk name image files).1 = .error fault ∧
        Refuses use.disk image files fault ∧ (use.next (.put name image files)).ledger = use.ledger ∧
          (use.next (.put name image files)).Settled model rows := by
  rw [next]
  rcases h.shows.put name image files with
    ⟨found, bytes, _, _, hfound, hwrite, hnodup, hreply, hshows⟩ |
    ⟨fault, _, _, hrefuses, hreply, hshows⟩
  · rw [hreply]
    have hsame (other : Text) (hother : other ≠ name) :
        rows.SameAt (rows.replace (rowOf name image bytes) found) other := Tables.sameAt_replace hother
    exact .inl ⟨_, rfl, hsame, h.update hshows (h.distinct.replace _ _)
      (Tables.holds_replace rows name hwrite hfound hnodup) hsame⟩
  · rw [hreply]
    exact .inr ⟨fault, rfl, hrefuses, rfl, hshows, h.distinct, h.holds⟩

/-- An entry is dropped with its deposit. -/
theorem Settled.next_delete (h : use.Settled model rows) (name : Text) :
    (use.store.delete use.disk name).1 = .ok () ∧
      (use.next (.delete name)).Settled model (rows.drop name) := by
  obtain ⟨next, left, hreply, hshows⟩ := h.shows.delete name
  rw [Use.next, hreply]
  exact ⟨rfl, h.update hshows (h.distinct.drop name) (Tables.holds_drop rows name) fun _ hother =>
    Tables.sameAt_drop hother⟩

/-- A request keeps the rows and the ledger in step. -/
theorem Settled.next (h : use.Settled model rows) {request : Request} (hspares : use.Spares model request) :
    ∃ after, (use.next request).Settled model after := by
  cases request with
  | put name image files =>
    rcases h.next_put name image files with ⟨after, _, _, hnext⟩ | ⟨_, _, _, _, hnext⟩
    · exact ⟨after, hnext⟩
    · exact ⟨rows, hnext⟩
  | delete name => exact ⟨_, (h.next_delete name).2⟩
  | change disk =>
    refine ⟨rows, ⟨h.shows.isOpen, h.shows.view_eq, fun _ => ?_⟩, h.distinct, h.holds⟩
    exact model.ready_of_spared (h.shows.ready trivial) hspares
  | get name => exact ⟨rows, h⟩
  | entries => exact ⟨rows, h⟩

/-- Requests in turn keep the rows and the ledger in step. -/
theorem Settled.run (h : use.Settled model rows) {requests : List Request}
    (hspares : use.SparesAll model requests) :
    ∃ after, (requests.foldl Use.next use).Settled model after := by
  induction requests generalizing use rows with
  | nil => exact ⟨rows, h⟩
  | cons request rest ih =>
    obtain ⟨after, hnext⟩ := h.next hspares.1
    exact ih hnext hspares.2

end Use

/-- Another store gives the same answers as a store about all names but one. -/
structure SameBut (name : Text) (store after : Store) : Prop where
  get_eq : ∀ other, other ≠ name → ∀ disk, after.get disk other = store.get disk other
  entries : ∃ listed now, store.entries = .ok listed ∧ after.entries = .ok now ∧
    ∀ entry : CacheEntry, entry.name ≠ name → (entry ∈ now ↔ entry ∈ listed)

/-- Another store gives the same answers as a store. -/
structure SameAnswers (store after : Store) : Prop where
  get_eq : ∀ name disk, after.get disk name = store.get disk name
  entries_eq : after.entries = store.entries

/-- A store gives the same answers about a name if its rows are the same there. -/
theorem Use.Settled.sameBut {now : Tables} (h : use.Settled model rows)
    (hafter : after.Settled model now) (hsame : ∀ other, other ≠ name → rows.SameAt now other) :
    SameBut name use.store after.store where
  get_eq other hother disk := by
    rw [hafter.shows.get, h.shows.get]
    exact (hsame other hother).answer disk
  entries := by
    refine ⟨_, _, h.shows.entries, hafter.shows.entries, fun entry hentry => ?_⟩
    have hboth := hsame entry.name hentry
    rw [hafter.distinct.mem_listed, h.distinct.mem_listed, hboth.1, hboth.dependenciesOf]

/-- A store gives the same answers if it shows the same rows. -/
theorem Use.Settled.sameAnswers (h : use.Settled model rows) (hafter : after.Settled model rows) :
    SameAnswers use.store after.store where
  get_eq name disk := by rw [hafter.shows.get, h.shows.get]
  entries_eq := by rw [hafter.shows.entries, h.shows.entries]

/-- From a store that was opened with nothing in it, after any requests and any changes to files other
than those of its database: a name without a deposit is not found; a deposit with a file that has
changed is stale, by the first such file; the image of any other deposit is given as storage has it,
unless one of its lists is longer than the codec accepts. The entries are those of the deposits. An
image that can be written is put in just if its files can be read and are different. If it is not put
in, the answers stay the same; and what is under one name stays when an image is put under another or
dropped. -/
theorem answers_follow_ledger (model : Model) {limit : Nat} (hcodec : Image.Codec.Conforms limit)
    {path : Text} {opened : Disk} (hrooted : disk.Rooted)
    (hunused : disk.entry? (disk.placeOf path) = none)
    (hopen : openAt disk path = (.ok store, opened)) {requests : List Request}
    (hspares : (Use.start store opened).SparesAll model requests) :
    let use := requests.foldl Use.next (Use.start store opened)
    (∀ name, use.ledger name = none → use.store.get use.disk name = .error .notFound) ∧
      (∀ name deposit, use.ledger name = some deposit →
        (∀ file, deposit.Changed use.disk file →
          ∃ first, deposit.FirstChanged use.disk first ∧
            use.store.get use.disk name = .error (.stale first)) ∧
        ((∀ file, ¬ deposit.Changed use.disk file) → deposit.image.Sound →
          deposit.image.version = Image.currentVersion →
            if deposit.image.Brief limit then
              use.store.get use.disk name = .ok deposit.image.settled
            else ∃ complaint, use.store.get use.disk name = .error (.image (.malformed complaint)))) ∧
      (∃ listed, use.store.entries = .ok listed ∧ use.ledger.Lists listed) ∧
      (∀ name image files,
        (image.Sound → ((use.store.put use.disk name image files).1 = .ok () ↔
          files.Nodup ∧ ∀ file ∈ files, ∃ digest, use.disk.digest file = .ok digest)) ∧
        (∀ fault, (use.store.put use.disk name image files).1 = .error fault →
          Refuses use.disk image files fault ∧
            (use.next (.put name image files)).ledger = use.ledger ∧
              SameAnswers use.store (use.next (.put name image files)).store) ∧
        SameBut name use.store (use.next (.put name image files)).store) ∧
      ∀ name, (use.store.delete use.disk name).1 = .ok () ∧
        SameBut name use.store (use.next (.delete name)).store := by
  intro use
  obtain ⟨rows, hsettled⟩ : ∃ rows, use.Settled model rows :=
    (Use.settled_start hrooted hunused hopen).run hspares
  have hget := hsettled.shows.get use.disk
  refine ⟨fun name hnone => ?_, fun name deposit hdeposit => ?_,
    ⟨_, hsettled.shows.entries, Tables.lists_listed hsettled.distinct hsettled.holds⟩,
    fun name image files => ⟨fun hsound => ?_, fun fault hfails => ?_, ?_⟩, fun name => ?_⟩
  · rw [hget]
    exact Tables.answer_of_holds_none (hnone ▸ hsettled.holds name)
  · have hkeeps : rows.Keeps name deposit := by
      have hholds := hsettled.holds name
      rwa [hdeposit] at hholds
    simp only [hget]
    refine ⟨fun file hchanged => hkeeps.answer_of_changed hchanged,
      fun hunchanged hsound hversion => ?_⟩
    rw [hkeeps.answer_of_unchanged hunchanged (Image.write_eq hcodec hsound)]
    split
    case isTrue hbrief =>
      rw [Image.read_toCbor hcodec hsound hbrief hversion]
      rfl
    case isFalse hlong =>
      obtain ⟨complaint, hrefused⟩ := Image.read_toCbor_of_not_brief hcodec hsound hlong
      exact ⟨complaint, by rw [hrefused]; rfl⟩
  · exact hsettled.shows.put_ok_iff name (Image.write_eq hcodec hsound) files
  · rcases hsettled.next_put name image files with ⟨_, hok, _, _⟩ | ⟨other, hother, hrefuses, hledger, hnext⟩
    · cases hok.symm.trans hfails
    · obtain rfl := Except.error.inj (hother.symm.trans hfails)
      exact ⟨hrefuses, hledger, hsettled.sameAnswers hnext⟩
  · rcases hsettled.next_put name image files with ⟨after, _, hsame, hnext⟩ | ⟨_, _, _, _, hnext⟩
    · exact hsettled.sameBut hnext hsame
    · exact hsettled.sameBut hnext fun _ _ => ⟨rfl, rfl⟩
  · obtain ⟨hreply, hnext⟩ := hsettled.next_delete name
    exact ⟨hreply, hsettled.sameBut hnext fun _ hother => Tables.sameAt_drop hother⟩

end Requests

/-- A disk with one file in its working directory. -/
def shelf : Disk :=
  ⟨[([Text.ofString "p"], .directory), ([Text.ofString "p", Text.ofString "f"], .file "a")],
    [Text.ofString "p"]⟩

/-- An image is put in with the file, and another under its name is refused as the file is listed
twice. -/
def deposits : List Request := [.put "n" Image.brief ["f"], .put "n" Image.bare ["f", "f"]]

/-- The requests, and then the file is changed. -/
def troubles (disk : Disk) : List Request :=
  deposits ++ [.change (disk.insert [Text.ofString "p", Text.ofString "f"] (.file "b"))]

/-- That disk is in order. -/
theorem rooted_shelf : shelf.Rooted :=
  Disk.rooted_of_entries (by decide +kernel) (by decide +kernel)

/-- The first image is given until the file changes, and nothing is found under another name. -/
theorem answers_follow_ledger_shelf :
    ∃ store opened, shelf.Rooted ∧ Disk.entry? shelf (shelf.placeOf "c") = none ∧
      openAt shelf "c" = (.ok store, opened) ∧
        let before := deposits.foldl Use.next (Use.start store opened)
        let after := (troubles before.disk).foldl Use.next (Use.start store opened)
        (Use.start store opened).SparesAll FileDatabase.model (troubles before.disk) ∧
          before.store.get before.disk "n" = .ok { Image.brief with locations := none } ∧
            after.store.get after.disk "n" = .error (.stale "f") ∧
              after.store.get after.disk "m" = .error .notFound := by
  have hunused : Disk.entry? shelf (shelf.placeOf "c") = none := by decide +kernel
  have hfacts : (openAt shelf "c").1.toOption.bind (fun store =>
      let use := deposits.foldl Use.next (Use.start store (openAt shelf "c").2)
      let changed := use.disk.insert [Text.ofString "p", Text.ofString "f"] (.file "b")
      (use.ledger "n").map fun deposit => decide (
        deposit.image = Image.brief ∧ deposit.files = [Text.ofString "f"] ∧
          (deposit.disk.read "f").toOption = some (Text.ofString "a") ∧
            (use.disk.read "f").toOption = some (Text.ofString "a") ∧
              (changed.read "f").toOption = some (Text.ofString "b") ∧
                (use.ledger "m").isNone = true ∧
                  FileDatabase.place use.store.connection = [Text.ofString "p", Text.ofString "c"])) =
      some true := by
    decide +kernel
  obtain ⟨store, hopens, hfacts⟩ := Option.bind_eq_some_iff.mp hfacts
  obtain ⟨deposit, hdeposit, hfacts⟩ := Option.map_eq_some_iff.mp hfacts
  obtain ⟨himage, hfiles, hthen, hnow, hlater, hnone, hplace⟩ := of_decide_eq_true hfacts
  have hopen := eq_of_toOption hopens
  generalize (openAt shelf "c").2 = opened at hopen hdeposit hnow hlater hnone hplace
  -- Only the file of the image is changed, not that of the database.
  have hspared : ∀ place, place = FileDatabase.place
        (deposits.foldl Use.next (Use.start store opened)).store.connection →
      Disk.entry? ((deposits.foldl Use.next (Use.start store opened)).disk.insert
        [Text.ofString "p", Text.ofString "f"] (.file "b")) place =
          (deposits.foldl Use.next (Use.start store opened)).disk.entry? place := by
    intro place hfile
    rw [hfile, hplace, Disk.entry?_insert (by decide), if_neg (by decide)]
  obtain ⟨_, hbefore, _⟩ := @answers_follow_ledger _ _ _ _ FileDatabase.model _ Image.codec_conforms _ _
    rooted_shelf hunused hopen deposits ⟨trivial, trivial, trivial⟩
  obtain ⟨habsent, hafter, _⟩ := @answers_follow_ledger _ _ _ _ FileDatabase.model _ Image.codec_conforms
    _ _ rooted_shelf hunused hopen (troubles (deposits.foldl Use.next (Use.start store opened)).disk)
    ⟨trivial, trivial, hspared, trivial⟩
  have hdigest : deposit.disk.digest "f" = shelf.digest "f" := by
    rw [Disk.digest, eq_ok_of_toOption hthen]
    rfl
  have hchanged : deposit.Changed ((deposits.foldl Use.next (Use.start store opened)).disk.insert
      [Text.ofString "p", Text.ofString "f"] (.file "b")) "f" := by
    refine ⟨by rw [hfiles]; exact List.mem_singleton_self _, ?_⟩
    rw [hdigest, Disk.digest, eq_ok_of_toOption hlater]
    refine fun hsame => absurd (congrArg Except.toOption hsame) ?_
    decide +kernel
  refine ⟨store, opened, rooted_shelf, hunused, hopen, ⟨trivial, trivial, hspared, trivial⟩, ?_, ?_, ?_⟩
  · have hunchanged : ∀ file,
        ¬ deposit.Changed (deposits.foldl Use.next (Use.start store opened)).disk file := by
      rintro file ⟨hfile, hother⟩
      rw [hfiles, List.mem_singleton] at hfile
      subst hfile
      refine hother ?_
      rw [Disk.digest, Disk.digest, eq_ok_of_toOption hnow, eq_ok_of_toOption hthen]
    have hgiven := (hbefore "n" deposit hdeposit).2 hunchanged (by rw [himage]; decide +kernel)
      (by rw [himage]; rfl)
    rw [himage, if_pos (by decide)] at hgiven
    exact hgiven
  · obtain ⟨first, hfirst, hget⟩ := (hafter "n" deposit hdeposit).1 "f" hchanged
    have hname := hfirst.1.1
    rw [hfiles, List.mem_singleton] at hname
    rw [hname] at hget
    exact hget
  · exact habsent "m" (Option.isNone_iff_eq_none.mp hnone)

/-- An image with a program that is too long can be put in, but is never given. -/
theorem overlong_not_given :
    ∃ store opened kept left, openAt shelf "c" = (.ok store, opened) ∧
      Image.overlong.Sound ∧ Image.overlong.version = Image.currentVersion ∧
        store.put opened "n" Image.overlong [] = (.ok (), kept, left) ∧
          ∀ disk, ¬ ∃ image, kept.get disk "n" = .ok image := by
  have hopens : (openAt shelf "c").1.toOption.isSome = true := by decide +kernel
  obtain ⟨store, hopens⟩ := Option.isSome_iff_exists.mp hopens
  have hopen := eq_of_toOption hopens
  have hstart := @Use.settled_start _ _ FileDatabase.model _ _ _ _ rooted_shelf (by decide +kernel) hopen
  have hwrite := Image.write_eq Image.codec_conforms Image.sound_overlong
  rcases hstart.shows.put "n" Image.overlong [] with
    ⟨found, bytes, kept, left, hfound, hwritten, hnodup, hreply, hkept⟩ | ⟨fault, _, _, hrefuses, _, _⟩
  · refine ⟨store, _, kept, left, hopen, Image.sound_overlong, rfl, hreply, fun disk => ?_⟩
    rintro ⟨image, hget⟩
    have hholds : Tables.Keeps _ "n" ⟨Image.overlong, [], _⟩ :=
      Tables.holds_replace .empty "n" hwritten hfound hnodup
    obtain ⟨complaint, hrefused⟩ :=
      Image.read_toCbor_of_not_brief Image.codec_conforms Image.sound_overlong Image.not_brief_overlong
    rw [hkept.get, hholds.answer_of_unchanged (fun file hfile => nomatch hfile.1) hwrite, hrefused] at hget
    cases hget
  · exact absurd hrefuses (not_refuses hwrite List.nodup_nil nofun)

end Store

end Tapestry

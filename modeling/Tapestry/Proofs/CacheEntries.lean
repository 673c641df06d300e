import Tapestry.Proofs.DatabaseLaws

/-!
# What is in the cache

Opening a store gives the rows that are stored in the file its path names. An image is put in with the
digests of its files in one transaction, so that the rows afterwards are those before, or those with
the new entry in place of the one under its name. A request for an image is answered from the rows:
there is none under the name, a file is not what it was, or the image is read from its bytes.
-/

namespace Tapestry

namespace Tables

/-- What a request for the image under a name is answered from tables. -/
def answer [Image.Codec] (tables : Tables) (disk : Disk) (name : Text) : Except CacheFault Image :=
  match tables.find? name with
  | none => .error .notFound
  | some row =>
    match (tables.dependenciesOf name).find? (!disk.isFresh ·) with
    | some dependency => .error (.stale dependency.file)
    | none => (Image.read row.bytes).mapError .image

/-- The entries of tables in order. -/
def listed (tables : Tables) : List CacheEntry :=
  tables.ordered.map fun row => { row.summary with dependencies := tables.dependenciesOf row.name }

/-- A request fails because there is no image or it is no longer good, or it is answered from an entry
all of whose files are what they were. -/
theorem answer_cases [Image.Codec] (tables : Tables) (disk : Disk) (name : Text) :
    tables.answer disk name = .error .notFound ∨
      (∃ file, tables.answer disk name = .error (.stale file)) ∨
        ∃ row dependencies, tables.Has row dependencies ∧ row.name = name ∧
          (∀ dependency ∈ dependencies, disk.isFresh dependency = true) ∧
            tables.answer disk name = (Image.read row.bytes).mapError .image := by
  unfold answer
  split
  case h_1 => exact .inl rfl
  case h_2 row hrow =>
    obtain rfl : row.name = name := by simpa using List.find?_some hrow
    split
    case h_1 dependency _ => exact .inr (.inl ⟨dependency.file, rfl⟩)
    case h_2 hfresh =>
      exact .inr (.inr ⟨row, _, ⟨List.mem_of_find?_eq_some hrow, rfl⟩, rfl, by simpa using hfresh, rfl⟩)

end Tables

namespace Store

open Database

/-- A reply that has a value is told by it and by what is left. -/
theorem eq_of_toOption {α β γ : Type} {reply : Except α β × γ} {value : β}
    (h : reply.1.toOption = some value) : reply = (.ok value, reply.2) := by
  obtain ⟨result, left⟩ := reply
  exact congrArg (·, left) (eq_ok_of_toOption h)

/-- Setting up a database changes no rows. -/
theorem keeps_setup (view : View) : Keeps (· = view) setup := by
  simp only [Keeps, setup, List.forall_mem_cons, Database.Statement.effect?]
  exact ⟨fun _ _ hview h => (Option.some.inj h).symm.trans hview,
    fun _ _ hview h => (Option.some.inj h).symm.trans hview,
    fun _ _ hview h => (Option.some.inj h).symm.trans hview,
    fun _ hmem => absurd hmem List.not_mem_nil⟩

variable [Database] {model : Model} {sure : Prop} {store next : Store} {disk opened left : Disk}
  {path name : Text} {rows : Tables}

/-! ## Opening a store -/

/-- What opening a store gives: a disk in order, and the rows that are stored in the file. -/
structure Opened (model : Model) (disk : Disk) (path : Text) (store : Store) (opened : Disk) : Prop where
  rooted : opened.Rooted
  working : opened.working = disk.working
  file_eq : model.file store.connection = disk.placeOf path
  shows : Shows model False store opened ⟨model.stored disk (disk.placeOf path), none⟩
  stored_eq : model.stored opened (disk.placeOf path) = model.stored disk (disk.placeOf path)

/-- The store that is set up when a cache is opened. -/
abbrev fresh (path : Text) (connection : Database.Connection) : Store :=
  { path, connection, isOpen := true }

section Connected

variable (model) {made : Disk} {connection : Database.Connection}
  (hfurnished : disk.Furnished made) (hconnect : Database.connect made path = .ok connection)
include hfurnished hconnect

/-- A store shows what is stored before it is set up. -/
theorem shows_fresh :
    Shows model False (fresh path connection) made ⟨model.stored disk (disk.placeOf path), none⟩ := by
  refine ⟨rfl, ?_, False.elim⟩
  rw [← Disk.placeOf_congr hfurnished.working, ← model.stored_of_furnished hfurnished]
  exact model.view_of_connect hconnect

/-- A store uses the file that its path names. -/
theorem file_fresh : model.file (fresh path connection).connection = disk.placeOf path :=
  (model.file_of_connect hconnect).trans (Disk.placeOf_congr hfurnished.working path)

/-- Setting up a database leaves what is stored in its file. -/
theorem leaves_setup :
    Leaves model (· = model.stored disk (disk.placeOf path)) (fresh path connection) made
      ((fresh path connection).executeAll made setup).2.1
      ((fresh path connection).executeAll made setup).2.2 :=
  (shows_fresh model hfurnished hconnect).leaves_executeAll (keeps_setup _) rfl
    fun {view} hview => by rw [hview]; rfl

end Connected

/-- Opening a store leaves the disk in order and what is stored in its file, whether or not it fails. -/
theorem stored_of_openAt (h : disk.Rooted) (model : Model) (path : Text) :
    (openAt disk path).2.Rooted ∧
      model.stored (openAt disk path).2 (disk.placeOf path) = model.stored disk (disk.placeOf path) := by
  unfold openAt
  split
  case h_1 => exact ⟨h, rfl⟩
  case h_2 made hmade =>
    obtain ⟨hrooted, hfurnished⟩ := h.makeDirectories hmade
    split
    case h_1 => exact ⟨hrooted, model.stored_of_furnished hfurnished _⟩
    case h_2 connection hconnect =>
      have hleaves := leaves_setup model hfurnished hconnect
      have hfile := file_fresh model hfurnished hconnect
      have hnamed := Disk.named_placeOf h.working_named path
      rw [← hfile] at hnamed
      have hleft := hleaves.stored
      rw [hfile] at hleft
      have hstored := model.stored_of_furnished hfurnished (disk.placeOf path)
      split
      case h_1 hreply =>
        rw [hreply] at hleaves hleft
        exact ⟨hleaves.rooted hnamed hrooted, hleft hstored⟩
      case h_2 hreply =>
        rw [hreply] at hleaves hleft
        exact ⟨hleaves.rooted hnamed hrooted, hleft hstored⟩

/-- A store that was opened shows the rows that were stored. -/
theorem opened_of_openAt (h : disk.Rooted) (hopen : openAt disk path = (.ok store, opened)) :
    Opened model disk path store opened := by
  obtain ⟨hrooted, hstored⟩ := stored_of_openAt h model path
  rw [hopen] at hrooted hstored
  unfold openAt at hopen
  split at hopen
  case h_1 => cases hopen
  case h_2 made hmade =>
    obtain ⟨-, hfurnished⟩ := h.makeDirectories hmade
    split at hopen
    case h_1 => cases hopen
    case h_2 connection hconnect =>
      have hleaves := leaves_setup model hfurnished hconnect
      split at hopen
      case h_1 final last hreply =>
        obtain ⟨hstore, rfl⟩ := Prod.mk.inj hopen
        cases hstore
        rw [hreply] at hleaves
        refine ⟨hrooted, hleaves.working_eq.trans hfurnished.working,
          hleaves.file_eq.trans (file_fresh model hfurnished hconnect), ?_, hstored⟩
        rcases (shows_fresh model hfurnished hconnect).executeAll setup with
          ⟨after, next, left, hafter, hdone, hshows⟩ | ⟨_, _, _, _, _, _, hfails, _⟩
        · obtain ⟨-, hsame⟩ := Prod.mk.inj (hdone.symm.trans hreply)
          cases hsame
          obtain rfl := View.holds_of_after? (keeps_setup _) rfl hafter
          exact hshows
        · cases hfails.symm.trans hreply
      case h_2 => cases hopen

/-- A script that was carried out starts with its first statement. -/
theorem executeAll_cons_eq_ok {step : Text × Database.Statement}
    {rest : List (Text × Database.Statement)}
    (h : store.executeAll disk (step :: rest) = (.ok (), next, left)) :
    ∃ middle between, store.execute disk step.1 step.2 = (.ok (), middle, between) ∧
      middle.executeAll between rest = (.ok (), next, left) := by
  rw [executeAll] at h
  split at h
  case h_1 middle between hfirst => exact ⟨middle, between, hfirst, h⟩
  case h_2 hfailed => exact absurd h (hfailed next left)

/-- A statement that was carried out for a store was carried out by its database. -/
theorem execute_eq_ok {action : Text} {statement : Database.Statement} (hopen : store.isOpen = true)
    (h : store.execute disk action statement = (.ok (), next, left)) :
    Database.execute store.connection disk statement = (.ok (), next.connection, left) ∧
      next.isOpen = true := by
  rw [execute_of_isOpen hopen] at h
  generalize Database.execute store.connection disk statement = reply at h
  obtain ⟨result, connection, other⟩ := reply
  obtain ⟨hresult, h⟩ := Prod.mk.inj h
  cases h
  cases result with
  | error complaint => cases hresult
  | ok _ => exact ⟨rfl, hopen⟩

/-- A store was opened by connecting to its database and setting it up. -/
theorem exists_setup_of_openAt (hopen : openAt disk path = (.ok store, opened)) :
    ∃ made first second third disk₁ disk₂, disk.makeDirectories (Path.directory path) = .ok made ∧
      Database.connect made path = .ok first ∧
        Database.execute first made .setTimeout = (.ok (), second, disk₁) ∧
          Database.execute second disk₁ .createImages = (.ok (), third, disk₂) ∧
            Database.execute third disk₂ .createFiles = (.ok (), store.connection, opened) := by
  unfold openAt at hopen
  split at hopen
  case h_1 => cases hopen
  case h_2 made hmade =>
    split at hopen
    case h_1 => cases hopen
    case h_2 first hconnect =>
      split at hopen
      case h_1 final last hreply =>
        obtain ⟨hstore, rfl⟩ := Prod.mk.inj hopen
        cases hstore
        obtain ⟨second, disk₁, htimeout, hreply⟩ := executeAll_cons_eq_ok hreply
        obtain ⟨third, disk₂, himages, hreply⟩ := executeAll_cons_eq_ok hreply
        obtain ⟨fourth, disk₃, hfiles, hreply⟩ := executeAll_cons_eq_ok hreply
        obtain ⟨-, hsame⟩ := Prod.mk.inj hreply
        cases hsame
        obtain ⟨htimeout, hsecond⟩ := execute_eq_ok rfl htimeout
        obtain ⟨himages, hthird⟩ := execute_eq_ok hsecond himages
        exact ⟨made, first, _, _, disk₁, disk₂, hmade, hconnect, htimeout, himages,
          (execute_eq_ok hthird hfiles).1⟩
      case h_2 => cases hopen

/-- A store that was opened where there was no file can be used. -/
theorem ready_of_openAt (h : disk.Rooted) (hunused : disk.entry? (disk.placeOf path) = none)
    (hopen : openAt disk path = (.ok store, opened)) : model.IsReady store.connection opened := by
  obtain ⟨made, _, _, _, _, _, hmade, hconnect, htimeout, himages, hfiles⟩ :=
    exists_setup_of_openAt hopen
  obtain ⟨-, hfurnished⟩ := h.makeDirectories hmade
  have hnew (contents : Text) : made.entry? (made.placeOf path) ≠ some (.file contents) := by
    rw [Disk.placeOf_congr hfurnished.working]
    rcases hfurnished.entries (disk.placeOf path) with hsame | ⟨_, hdirectory⟩
    · rw [hsame, hunused]
      exact fun hfile => nomatch hfile
    · rw [hdirectory]
      exact fun hfile => nomatch Option.some.inj hfile
  exact model.ready_of_setup hnew hconnect htimeout himages hfiles

/-! ## Putting in an entry -/

section Put

variable [Image.Codec] {image : Image} {files : List Text}

/-- The row of an image under a name. -/
def rowOf (name : Text) (image : Image) (bytes : Text) : ImageRow :=
  { name, buildId := image.buildId, created := image.created, bytes }

/-- Why an image cannot be put into a store: a file cannot be read, the image cannot be written, or a
file is listed twice. -/
def Refuses (disk : Disk) (image : Image) (files : List Text) (fault : CacheFault) : Prop :=
  (∃ file ∈ files, disk.digest file = .error fault) ∨
    (∃ complaint, image.write = .error complaint ∧ fault = .unwritable complaint) ∨
      ∃ file complaint, 2 ≤ files.count file ∧
        fault = .database (Text.ofString "saving dep " ++ file) complaint

/-- An image takes the place of the one under its name, unless it is refused. Then the rows are as
before, also if statements had been carried out. -/
theorem Shows.put (h : Shows model True store disk ⟨rows, none⟩) (name : Text) (image : Image)
    (files : List Text) :
    (∃ found bytes next left, disk.dependencies files = .ok found ∧ image.write = .ok bytes ∧
        files.Nodup ∧ store.put disk name image files = (.ok (), next, left) ∧
          Shows model True next left ⟨rows.replace (rowOf name image bytes) found, none⟩) ∨
      ∃ fault next left, Refuses disk image files fault ∧
        store.put disk name image files = (.error fault, next, left) ∧
          Shows model True next left ⟨rows, none⟩ := by
  rw [Store.put]
  cases hfound : disk.dependencies files with
  | error fault =>
    obtain ⟨file, hfile, hdigest⟩ := Disk.exists_of_dependencies_error hfound
    exact .inr ⟨fault, store, disk, .inl ⟨file, hfile, hdigest⟩, rfl, h⟩
  | ok found =>
    have hfiles := Disk.files_of_dependencies hfound
    cases hwrite : image.write with
    | error complaint =>
      exact .inr ⟨_, store, disk, .inr (.inl ⟨complaint, hwrite, rfl⟩), rfl, h⟩
    | ok bytes =>
      rcases h.transaction (keeps_entryScript (rowOf name image bytes) found (some rows)) with
        ⟨after, next, left, hafter, hreply, hshows⟩ |
        ⟨action, complaint, _, next, left, hstops, hreply, hshows⟩
      · rw [after?_entryScript, hfiles] at hafter
        split at hafter
        case isTrue hnodup =>
          cases hafter
          exact .inl ⟨found, bytes, next, left, rfl, rfl, hnodup, hreply, hshows⟩
        case isFalse => cases hafter
      · obtain ⟨file, hcount, rfl⟩ := exists_of_stopsAt_entryScript hstops trivial
        rw [hfiles] at hcount
        exact .inr ⟨_, next, left, .inr (.inr ⟨file, complaint, hcount, rfl⟩), hreply, hshows⟩

/-- What is stored after an image was put in was stored before, or shows the rows before or those with
the image. This also holds of a database that fails. -/
theorem Shows.leaves_put {good : Tables → Prop} (h : Shows model sure store disk ⟨rows, none⟩)
    (hrows : good rows)
    (hgood : ∀ {found bytes}, disk.dependencies files = .ok found → image.write = .ok bytes →
      good (rows.replace (rowOf name image bytes) found)) :
    Leaves model good store disk (store.put disk name image files).2.1
      (store.put disk name image files).2.2 := by
  rw [Store.put]
  cases hfound : disk.dependencies files with
  | error fault => exact .refl
  | ok found =>
    cases hwrite : image.write with
    | error complaint => exact .refl
    | ok bytes =>
      refine h.leaves_transaction (keeps_entryScript (rowOf name image bytes) found (some rows)) hrows
        fun hafter => ?_
      rw [after?_entryScript] at hafter
      split at hafter
      case isTrue =>
        cases hafter
        exact hgood hfound hwrite
      case isFalse => cases hafter

end Put

/-! ## Other requests -/

/-- Dropping an entry drops its image and its files. -/
theorem Shows.delete (h : Shows model True store disk ⟨rows, none⟩) (name : Text) :
    ∃ next left, store.delete disk name = (.ok (), next, left) ∧
      Shows model True next left ⟨rows.drop name, none⟩ := by
  rcases h.executeAll [("deleting image", .dropImage name), ("deleting deps", .dropFiles name)] with
    ⟨_, next, left, hafter, hreply, hshows⟩ | ⟨_, _, _, _, _, hstops, _, _⟩
  · cases hafter
    exact ⟨next, left, hreply, hshows⟩
  · cases hstops with
    | here refused => cases refused trivial
    | later done stops =>
      cases stops with
      | here refused => cases refused trivial
      | later done stops => cases stops

/-- A query to an open store is answered by its database. -/
theorem query_eq_ok {α : Type} {answer : Except Text α} {value : α} (hopen : store.isOpen = true)
    (h : answer = .ok value) (action : Text) : store.query action answer = .ok value := by
  rw [query, if_pos hopen, h]
  rfl

/-- A request for an image is answered from the rows. -/
theorem Shows.get [Image.Codec] {view : View} (h : Shows model True store left view) (disk : Disk)
    (name : Text) : store.get disk name = view.rows.answer disk name := by
  have hready := h.ready trivial
  have hbytes := query_eq_ok h.isOpen (model.bytesOf_eq name hready) "querying image"
  have hfiles := query_eq_ok h.isOpen (model.filesOf_eq name hready) "querying deps"
  rw [h.view_eq] at hbytes hfiles
  rw [Store.get, hbytes, Tables.answer]
  cases view.rows.find? name with
  | none => rfl
  | some row =>
    change (store.query "querying deps" (Database.filesOf store.connection name) >>= _) = _
    rw [hfiles]
    rfl

/-- The entries are listed from the rows. -/
theorem Shows.entries {view : View} (h : Shows model True store disk view) :
    store.entries = .ok view.rows.listed := by
  have hready := h.ready trivial
  have himages := query_eq_ok h.isOpen (model.images_eq hready) "listing images"
  have hfiles (name : Text) := query_eq_ok h.isOpen (model.filesOf_eq name hready) "querying deps"
  rw [h.view_eq] at himages
  simp only [h.view_eq] at hfiles
  rw [Store.entries, himages, Tables.listed]
  change List.mapM _ _ = _
  generalize view.rows.ordered = images
  induction images with
  | nil => rfl
  | cons row rest ih =>
    rw [List.map_cons, List.mapM_cons, ih]
    simp only [hfiles]
    rfl

end Store

end Tapestry

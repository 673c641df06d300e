import Tapestry.Command.Compile
import Tapestry.Proofs.CacheEntries
import Tapestry.Proofs.FileDatabases
import Tapestry.Proofs.Rebuilding
import Tapestry.Proofs.StoredImages
import Tapestry.Toml.Decoder

/-!
# Builds through a cache

A cache keeps programs by the name of their source, with the digests of all units they were built
from, and answers with a program while none of these has changed. Nothing else is looked at: not
where units are sought now, nor how deep visits may nest.

Jobs in a row use one cache, and the disk is changed between them. Every entry of the cache is that
of a build made before, so a job gives what it gives without the cache, or what came out of an
earlier build of the same source whose units all hold the same. That build would come out again if
its units are found again under their names, and no visit of it is too deep for the job.

All this holds with any database and any codec that do what they are taken to do.
-/

namespace Tapestry

namespace Command

variable {job : Job}

/-! ## Jobs -/

/-- A build that was made: the disk it was made on, the job and the stamp, and what came out. -/
structure Past where
  disk : Disk
  job : Job
  stamp : Stamp
  build : Build

namespace Past

/-- A build was made as it is said. -/
structure Valid (past : Past) : Prop where
  rooted : past.disk.Rooted
  built : past.disk.build past.job.buildOptions past.job.source = .ok past.build

/-- An entry of the cache is that of a build: it has the name of the source, the bytes of the image, and
the digest of every file. -/
structure KeptAs [Image.Codec] (past : Past) (row : ImageRow) (dependencies : List Dependency) : Prop where
  name_eq : row.name = past.disk.absolute past.job.source
  write_eq : (past.build.image past.stamp).write = .ok row.bytes
  digests : ∀ file ∈ past.build.files, ∃ digest, past.disk.digest file = .ok digest ∧
    ⟨file, digest⟩ ∈ dependencies

end Past

namespace Job

/-- A job takes its program from a source through the cache at a place. -/
structure Uses (job : Job) (disk : Disk) (database : Place) : Prop where
  source : imageSuffix.isSuffixOf job.source = false
  cache : job.options.cache ≠ []
  tree : job.options.tree = false
  place : disk.placeOf job.options.cache = database

/-- The program as the cache has it. -/
def served : Except CacheFault Image → Except LoadFault Product
  | .ok image => .ok { image, build := none }
  | .error fault => .error (.other fault.message)

section Cached

variable [Image.Codec] [Database] {model : Database.Model} {job : Job} {disk opened : Disk}
  {stamp : Stamp} {database : Place} {store : Store} {past : Past}

/-- A job that uses a cache asks it for the program. -/
theorem Uses.load_eq (h : job.Uses disk database) (stamp : Stamp) :
    job.load disk stamp = job.loadCached disk stamp := by
  have hcache : (!job.options.cache.isEmpty && !job.options.tree) = true := by
    simp [h.cache, h.tree]
  rw [load, if_neg (by simp [h.source]), if_pos hcache]

/-- A program that is built anew may be kept. -/
theorem rebuild_cases (job : Job) (store : Store) (opened : Disk) (name : Text) (stamp : Stamp) :
    (job.rebuild store opened name stamp).2 = (job.compile opened stamp).map Prod.fst ∧
      ((job.rebuild store opened name stamp).1 = opened ∨
        ∃ build, opened.build job.buildOptions job.source = .ok build ∧
          (job.rebuild store opened name stamp).1 =
            (store.put opened name (build.image stamp) build.files).2.2) := by
  unfold rebuild compile
  cases hbuild : opened.build job.buildOptions job.source with
  | error error => exact ⟨rfl, .inl rfl⟩
  | ok build => exact ⟨rfl, .inr ⟨build, rfl, rfl⟩⟩

/-- The cache answers a job, or it has no good program and it is built anew. -/
theorem loadCached_cases (job : Job) (stamp : Stamp)
    (hopen : Store.openAt disk job.options.cache = (.ok store, opened)) :
    job.loadCached disk stamp =
        (opened, served (store.get opened (disk.absolute job.source))) ∨
      job.loadCached disk stamp = job.rebuild store opened (disk.absolute job.source) stamp := by
  unfold loadCached
  rw [hopen]
  dsimp only
  cases store.get opened (disk.absolute job.source) with
  | ok image => exact .inl rfl
  | error fault =>
    cases fault with
    | notFound => exact .inr rfl
    | stale file => exact .inr rfl
    | unreadable file fault => exact .inl rfl
    | unwritable complaint => exact .inl rfl
    | image fault => exact .inl rfl
    | database action complaint => exact .inl rfl
    | directory fault => exact .inl rfl

/-- If the database can be used, a job is answered from an entry whose files are what they were, or the
program is built anew. -/
theorem loadCached_of_shows (job : Job) (stamp : Stamp) {rows : Tables}
    (hopen : Store.openAt disk job.options.cache = (.ok store, opened))
    (hshows : Store.Shows model True store opened ⟨rows, none⟩) :
    (∃ row dependencies, rows.Has row dependencies ∧ row.name = disk.absolute job.source ∧
      (∀ dependency ∈ dependencies, opened.isFresh dependency = true) ∧
        job.loadCached disk stamp = (opened, served ((Image.read row.bytes).mapError .image))) ∨
      job.loadCached disk stamp = job.rebuild store opened (disk.absolute job.source) stamp := by
  have hget := hshows.get opened (disk.absolute job.source)
  rcases rows.answer_cases opened (disk.absolute job.source) with
    hmissing | ⟨file, hstale⟩ | ⟨row, dependencies, hhas, hname, hfresh, hread⟩
  · refine .inr ?_
    rw [loadCached, hopen]
    dsimp only
    rw [hget, hmissing]
  · refine .inr ?_
    rw [loadCached, hopen]
    dsimp only
    rw [hget, hstale]
  · rcases job.loadCached_cases stamp hopen with hserved | hrebuilt
    · rw [hget, hread] at hserved
      exact .inl ⟨row, dependencies, hhas, hname, hfresh, hserved⟩
    · exact .inr hrebuilt

/-- What a job makes on a disk, unless it fails or takes the program from the cache. -/
def made (job : Job) (disk : Disk) (stamp : Stamp) : Option Past :=
  match Store.openAt disk job.options.cache, (job.load disk stamp).2 with
  | (.ok _, opened), .ok { build := some build, .. } => some ⟨opened, job, stamp, build⟩
  | _, _ => none

/-- A program that is built anew is listed as made. -/
theorem made_of_build (uses : job.Uses disk database)
    (hopen : Store.openAt disk job.options.cache = (.ok store, opened))
    (hresult : (job.loadCached disk stamp).2 = (job.compile opened stamp).map Prod.fst)
    {build : Build} (hbuild : opened.build job.buildOptions job.source = .ok build) :
    job.made disk stamp = some ⟨opened, job, stamp, build⟩ := by
  rw [made, uses.load_eq, hopen, hresult, compile, hbuild]
  rfl

/-- What is listed as made was made. -/
theorem valid_of_made (model : Database.Model) (job : Job) (h : disk.Rooted) (uses : job.Uses disk database)
    (hmade : job.made disk stamp = some past) : past.Valid := by
  rw [made, uses.load_eq] at hmade
  rcases hopen : Store.openAt disk job.options.cache with ⟨_ | store, opened⟩
  · rw [hopen] at hmade
    cases hmade
  · have hopened : Store.Opened model disk job.options.cache store opened :=
      Store.opened_of_openAt h hopen
    rw [hopen] at hmade
    rcases job.loadCached_cases stamp hopen with hserved | hrebuilt
    · rw [hserved] at hmade
      cases hget : store.get opened (disk.absolute job.source) <;> rw [hget] at hmade <;> cases hmade
    · rw [hrebuilt, (job.rebuild_cases store opened (disk.absolute job.source) stamp).1, compile] at hmade
      cases hbuild : opened.build job.buildOptions job.source with
      | error error =>
        rw [hbuild] at hmade
        cases hmade
      | ok build =>
        rw [hbuild] at hmade
        cases hmade
        exact ⟨hopened.rooted, hbuild⟩

/-- A job keeps the disk in order, and what is stored in the cache then is that of the build it made or
was there before. -/
theorem load_keeps (model : Database.Model) (job : Job) (stamp : Stamp) (h : disk.Rooted)
    (uses : job.Uses disk database) :
    (job.load disk stamp).1.Rooted ∧ ∀ row dependencies,
      (model.stored (job.load disk stamp).1 database).Has row dependencies →
        (∃ past, job.made disk stamp = some past ∧ past.KeptAs row dependencies) ∨
          (model.stored disk database).Has row dependencies := by
  obtain ⟨hrooted, hstored⟩ := Store.stored_of_openAt h model job.options.cache
  rw [uses.load_eq]
  rw [uses.place] at hstored
  rcases hopen : Store.openAt disk job.options.cache with ⟨fault | store, opened⟩
  · rw [hopen] at hrooted hstored
    have hload : job.loadCached disk stamp = (opened, .error (.other fault.message)) := by
      rw [loadCached, hopen]
    rw [hload, hstored]
    exact ⟨hrooted, fun _ _ hhas => .inr hhas⟩
  · rw [hopen] at hrooted hstored
    have hopened : Store.Opened model disk job.options.cache store opened :=
      Store.opened_of_openAt h hopen
    have hsame : opened.Rooted ∧ ∀ row dependencies, (model.stored opened database).Has row dependencies →
        (∃ past, job.made disk stamp = some past ∧ past.KeptAs row dependencies) ∨
          (model.stored disk database).Has row dependencies :=
      ⟨hrooted, fun _ _ hhas => .inr (hstored ▸ hhas)⟩
    rcases job.loadCached_cases stamp hopen with hserved | hrebuilt
    · rw [hserved]
      exact hsame
    · obtain ⟨hresult, hdisk | ⟨build, hbuild, hdisk⟩⟩ :=
        job.rebuild_cases store opened (disk.absolute job.source) stamp
      · rw [hrebuilt, hdisk]
        exact hsame
      · rw [← hrebuilt] at hresult
        have hmade := made_of_build uses hopen hresult hbuild
        have hfile := hopened.file_eq
        have hshows := hopened.shows
        rw [uses.place] at hfile hshows
        have hleaves : Store.Leaves model (fun tables => ∀ row dependencies, tables.Has row dependencies →
            (∃ past, job.made disk stamp = some past ∧ past.KeptAs row dependencies) ∨
              (model.stored disk database).Has row dependencies) store opened _ _ :=
          hshows.leaves_put (fun _ _ hhas => .inr hhas) fun hfound hwrite row dependencies hhas => by
            -- The source has the same name on the opened disk.
            have hname := Disk.absolute_congr hopened.working job.source
            rcases hhas.of_replace with ⟨rfl, hperm⟩ | hold
            · refine .inl ⟨_, hmade, hname.symm, hwrite, fun file hfile => ?_⟩
              obtain ⟨digest, hdigest, hmem⟩ := Disk.exists_of_dependencies hfound file hfile
              exact ⟨digest, hdigest, hperm.mem_iff.mpr hmem⟩
            · exact .inr hold
        rw [hrebuilt, hdisk]
        refine ⟨hleaves.rooted ?_ hrooted, ?_⟩
        · rw [hopened.file_eq]
          exact Disk.named_placeOf h.working_named _
        · have hkept := hleaves.stored
          rw [hfile] at hkept
          exact hkept hsame.2

end Cached

end Job

section Sequences

variable [Image.Codec] [Database]

/-- Jobs that use the cache at a place, in a row, with changes of the disk between them. The cache is
empty at first, and a change may take entries out of it but puts none in. The builds made are listed. -/
inductive Sequence (model : Database.Model) (database : Place) : List Past → Disk → Prop where
  | start {disk} (rooted : disk.Rooted)
      (unused : ∀ row dependencies, ¬ (model.stored disk database).Has row dependencies) :
    Sequence model database [] disk
  | load {pasts disk} (before : Sequence model database pasts disk) (job : Job) (stamp : Stamp)
      (uses : job.Uses disk database) :
    Sequence model database (pasts ++ (job.made disk stamp).toList) (job.load disk stamp).1
  | change {pasts disk other} (before : Sequence model database pasts disk) (rooted : other.Rooted)
      (kept : ∀ row dependencies, (model.stored other database).Has row dependencies →
        (model.stored disk database).Has row dependencies) :
    Sequence model database pasts other

/-- Every entry of the cache is that of a build that was made. -/
structure Recorded (model : Database.Model) (database : Place) (pasts : List Past) (disk : Disk) :
    Prop where
  rooted : disk.Rooted
  valid : ∀ past ∈ pasts, past.Valid
  kept : ∀ row dependencies, (model.stored disk database).Has row dependencies →
    ∃ past ∈ pasts, past.KeptAs row dependencies

variable {model : Database.Model} {database : Place} {pasts : List Past} {disk : Disk}

/-- A job keeps the entries of the cache in line with the builds made. -/
theorem Recorded.load (h : Recorded model database pasts disk) (uses : job.Uses disk database)
    (stamp : Stamp) :
    Recorded model database (pasts ++ (job.made disk stamp).toList) (job.load disk stamp).1 := by
  obtain ⟨hrooted, hentries⟩ := job.load_keeps model stamp h.rooted uses
  refine ⟨hrooted, fun past hpast => ?_, fun row dependencies hhas => ?_⟩
  · rcases List.mem_append.mp hpast with hold | hnew
    · exact h.valid past hold
    · exact job.valid_of_made model h.rooted uses (Option.mem_toList.mp hnew)
  · rcases hentries row dependencies hhas with ⟨past, hmade, hkept⟩ | hold
    · exact ⟨past, List.mem_append_right _ (Option.mem_toList.mpr hmade), hkept⟩
    · obtain ⟨past, hpast, hkept⟩ := h.kept row dependencies hold
      exact ⟨past, List.mem_append_left _ hpast, hkept⟩

/-- Every entry of the cache is that of a build made before, whatever jobs used it. -/
theorem recorded_of_sequence (h : Sequence model database pasts disk) :
    Recorded model database pasts disk := by
  induction h with
  | start rooted unused =>
    exact ⟨rooted, fun _ hpast => absurd hpast List.not_mem_nil,
      fun row dependencies hhas => absurd hhas (unused row dependencies)⟩
  | load before job stamp uses ih => exact ih.load uses stamp
  | change before rooted kept ih =>
    exact ⟨rooted, ih.valid, fun row dependencies hhas => ih.kept _ _ (kept row dependencies hhas)⟩

end Sequences

/-! ## Answers of the cache -/

/-- What a program comes to: its instructions and where they come from, or why there is none. -/
def outcome (result : Except Job.LoadFault Product) :
    Except Job.LoadFault (List Instruction × List Location) :=
  result.map fun product => (product.image.program, product.image.locations.getD [])

/-- A program that was built comes to the code of the build. -/
theorem outcome_compile {disk : Disk} {stamp : Stamp} {build : Build}
    (h : disk.build job.buildOptions job.source = .ok build) :
    outcome ((job.compile disk stamp).map Prod.fst) = .ok (build.code, build.locations) := by
  rw [Job.compile, h]
  simp only [Except.map, outcome, Build.image, Image.program, Image.getD_unlessEmpty]

/-- A program that was kept comes to the code of its build. -/
theorem outcome_served [Image.Codec] {limit : Nat} (hcodec : Image.Codec.Conforms limit) {build : Build}
    {stamp : Stamp} {bytes : Text} (hwrite : (build.image stamp).write = .ok bytes)
    (hsound : (build.image stamp).Sound) (hbrief : (build.image stamp).Brief limit) :
    outcome (Job.served ((Image.read bytes).mapError .image)) = .ok (build.code, build.locations) := by
  obtain rfl := Except.ok.inj ((Image.write_eq hcodec hsound).symm.trans hwrite)
  rw [Image.read_toCbor hcodec hsound hbrief rfl]
  simp only [Except.mapError, Job.served, Except.map, outcome, Build.image, Image.settled, Image.program,
    Image.getD_unlessEmpty]

/-- The job with the cache left out. -/
def Job.uncached (job : Job) : Job :=
  { job with options := { job.options with cache := [], noCache := true } }

/-- A command to leave the cache out does the same job without it. -/
theorem prepare_noCache [Manifest.Decoder] {disk : Disk} {options : Options} {source : Text}
    (h : Job.prepare disk options source = .ok job) :
    Job.prepare disk { options with noCache := true } source = .ok job.uncached := by
  have hsettle (options : Options) : Options.settleCache { options with noCache := true } =
      { options.settleCache with cache := [], noCache := true } := by
    unfold Options.settleCache
    cases options.noCache <;> rfl
  unfold Job.prepare at h ⊢
  dsimp only at h ⊢
  split at h
  case h_1 => cases h
  case h_2 =>
    split at h
    case isTrue => cases h
    case isFalse hsource =>
      cases h
      rw [if_neg hsource, hsettle]
      rfl
  case h_3 manifest _ =>
    cases h
    have hcomplete : Options.complete { options with noCache := true } manifest =
        { options.complete manifest with noCache := true } := rfl
    rw [hcomplete, hsettle]
    rfl

/-- Without a cache the program is built. -/
theorem load_uncached [Image.Codec] [Database] (h : Job.imageSuffix.isSuffixOf job.source = false)
    (disk : Disk) (stamp : Stamp) :
    job.uncached.load disk stamp = (disk, (job.compile disk stamp).map Prod.fst) := by
  have hsource : ¬ Job.imageSuffix.isSuffixOf job.uncached.source = true := by
    rw [show job.uncached.source = job.source from rfl, h]
    exact Bool.false_ne_true
  rw [Job.load, if_neg hsource]
  rfl

namespace Past

/-- The cache may answer a job with a build: it was made of the source of that name, and all its units
are still there and hold the same. -/
structure Answers (past : Past) (disk : Disk) (job : Job) : Prop where
  name_eq : past.disk.absolute past.job.source = disk.absolute job.source
  units : ∀ file ∈ past.build.files, ∃ contents,
    past.disk.read file = .ok contents ∧ disk.read file = .ok contents

/-- A job asks for a build as it was made: the source can be opened, all units that were asked for
are still found under the same names, and nothing is deeper than the job allows. -/
structure Stands (past : Past) (disk : Disk) (job : Job) : Prop where
  opens : ∃ contents, disk.read job.source = .ok contents
  found : ∀ visit ∈ past.build.visits, ∀ target origin, visit.request? = some (target, origin) →
    (disk.loader job.buildOptions.search target origin).name =
      (past.disk.loader past.job.buildOptions.search target origin).name
  shallow : ∀ visit ∈ past.build.visits,
    visit.depth ≤ job.buildOptions.maxDepth

/-- An entry whose files are what they were answers with its build. -/
theorem answers_of_fresh [Image.Codec] {past : Past} {row : ImageRow}
    {dependencies : List Dependency} {disk : Disk} (h : past.KeptAs row dependencies)
    (hname : row.name = disk.absolute job.source)
    (hfresh : ∀ dependency ∈ dependencies, disk.isFresh dependency = true)
    (hdigests : ∀ file ∈ past.build.files, disk.digest file = past.disk.digest file →
      disk.read file = past.disk.read file) :
    past.Answers disk job := by
  refine ⟨h.name_eq.symm.trans hname, fun file hfile => ?_⟩
  obtain ⟨digest, hdigest, hmem⟩ := h.digests file hfile
  have hsame := hdigests file hfile ((Disk.isFresh_iff.mp (hfresh _ hmem)).trans hdigest.symm)
  rw [hsame]
  unfold Disk.digest at hdigest
  split at hdigest
  case h_1 => cases hdigest
  case h_2 contents hread => exact ⟨contents, hread, hread⟩

/-- Where a build stands it comes out again. -/
theorem build_of_stands {past : Past} {disk : Disk} (hvalid : past.Valid) (hrooted : disk.Rooted)
    (h : past.Answers disk job) (hstands : past.Stands disk job) :
    disk.build job.buildOptions job.source = .ok past.build := by
  refine hvalid.rooted.build_again hrooted hvalid.built h.name_eq.symm hstands.opens
    (fun file hfile => ?_) hstands.found hstands.shallow
  obtain ⟨contents, hpast, hread⟩ := h.units file hfile
  rw [hread, hpast]

end Past

/-- Whatever jobs used a cache and whatever changed on the disk between them: a job that can open the
cache and use it gives what the same command gives that leaves the cache out, or else the cache answers
with an earlier build of the same source whose units are all there and hold the same. If the image of
that build can be written and no list in it is longer than the codec accepts, the job gives its
program, and that is also what comes out without the cache wherever the build stands. The digests of
these units are taken to tell their contents apart. -/
theorem cached_builds_fresh_or_earlier [Manifest.Decoder] [Image.Codec] [Database]
    (model : Database.Model) {limit : Nat} (hcodec : Image.Codec.Conforms limit) {database : Place}
    {pasts : List Past} {disk : Disk} (hsequence : Sequence model database pasts disk)
    {options : Options} {source : Text} {job : Job}
    (hprepare : Job.prepare disk options source = .ok job) (huses : job.Uses disk database)
    {store : Store} {opened : Disk}
    (hopen : Store.openAt disk job.options.cache = (.ok store, opened))
    (hready : model.IsReady store.connection opened) (stamp : Stamp)
    (hdigests : ∀ past ∈ pasts, ∀ file ∈ past.build.files,
      opened.digest file = past.disk.digest file → opened.read file = past.disk.read file) :
    ∃ fresh, Job.prepare disk { options with noCache := true } source = .ok fresh ∧
      ((job.load disk stamp).2 = (fresh.load opened stamp).2 ∨
        ∃ past ∈ pasts, past.Answers opened job ∧
          ((past.build.image past.stamp).Sound → (past.build.image past.stamp).Brief limit →
            outcome (job.load disk stamp).2 = .ok (past.build.code, past.build.locations) ∧
              (past.Stands opened job →
                outcome (job.load disk stamp).2 = outcome (fresh.load opened stamp).2))) := by
  have hrecorded := recorded_of_sequence hsequence
  have hopened : Store.Opened model disk job.options.cache store opened :=
    Store.opened_of_openAt hrecorded.rooted hopen
  have hshows : Store.Shows model True store opened
      ⟨model.stored disk (disk.placeOf job.options.cache), none⟩ :=
    ⟨hopened.shows.isOpen, hopened.shows.view_eq, fun _ => hready⟩
  rw [huses.place] at hshows
  refine ⟨job.uncached, prepare_noCache hprepare, ?_⟩
  rw [huses.load_eq, load_uncached huses.source]
  rcases job.loadCached_of_shows stamp hopen hshows with
    ⟨row, dependencies, hhas, hname, hunchanged, hserved⟩ | hrebuilt
  · refine .inr ?_
    obtain ⟨past, hpast, hkept⟩ := hrecorded.kept row dependencies hhas
    have habsolute := Disk.absolute_congr hopened.working job.source
    have hanswers := past.answers_of_fresh hkept (hname.trans habsolute.symm) hunchanged
      (hdigests past hpast)
    refine ⟨past, hpast, hanswers, fun hsound hbrief => ?_⟩
    rw [hserved, outcome_served hcodec hkept.write_eq hsound hbrief]
    refine ⟨rfl, fun hstands => ?_⟩
    rw [outcome_compile (past.build_of_stands (hrecorded.valid past hpast) hopened.rooted hanswers
      hstands)]
  · rw [hrebuilt]
    exact .inl (job.rebuild_cases store opened _ stamp).1

/-- A source with a primitive two levels deep. -/
def sinker : Text := "macro global deep\n    __plus 3\ndeep\n"

/-- A disk with that source in its working directory. -/
def desk : Disk :=
  ⟨[([Text.ofString "p"], .directory), ([Text.ofString "p", Text.ofString "main.br"], .file sinker)],
    [Text.ofString "p"]⟩

/-- Where the cache of that directory is. -/
def drawer : Place := [Text.ofString "p", Text.ofString "c.db"]

/-- The settings of a command that keeps its cache in that directory. -/
def deskOptions (libraries : Text) (depth : Int) : Options :=
  { cache := "c.db", maxDepth := depth, libraries }

/-- The job of such a command. -/
def deskJob (libraries : Text) (depth : Int) : Job := ⟨deskOptions libraries depth, "main.br", none⟩

/-- A first build that was kept in the cache. -/
def filed : Disk := ((deskJob [] 0).load desk ⟨"first", 1⟩).1

/-- A job in that directory uses the cache there. -/
theorem uses_desk {disk : Disk} (h : disk.working = desk.working) (libraries : Text) (depth : Int) :
    (deskJob libraries depth).Uses disk drawer where
  source := show Job.imageSuffix.isSuffixOf (Text.ofString "main.br") = false by decide
  cache := show Text.ofString "c.db" ≠ [] by decide
  tree := rfl
  place := (Disk.placeOf_congr h _).trans
    (show desk.placeOf (Text.ofString "c.db") = drawer by decide +kernel)

/-- A command in that directory is such a job. -/
theorem prepare_desk {disk : Disk}
    (h : (Manifest.find disk ".").toOption.map Option.isNone = some true) (libraries : Text)
    (depth : Int) :
    Job.prepare disk (deskOptions libraries depth) "main.br" = .ok (deskJob libraries depth) := by
  obtain ⟨found, hfound, hnone⟩ := Option.map_eq_some_iff.mp h
  obtain rfl := Option.isNone_iff_eq_none.mp hnone
  have hstart : (if (Text.ofString "main.br").isEmpty then Text.ofString "."
      else Path.directory (Text.ofString "main.br")) = Text.ofString "." := by decide +kernel
  unfold Job.prepare
  rw [hstart]
  dsimp only
  rw [eq_ok_of_toOption hfound]
  rfl

/-- The first build is that of a sequence. -/
theorem sequence_filed :
    Sequence FileDatabase.model drawer ((deskJob [] 0).made desk ⟨"first", 1⟩).toList filed := by
  have hrooted : desk.Rooted := Disk.rooted_of_entries (by decide +kernel) (by decide +kernel)
  have hempty : FileDatabase.storedAt desk drawer = .empty := by decide +kernel
  have hunused (row : ImageRow) (dependencies : List Dependency) :
      ¬ (FileDatabase.model.stored desk drawer).Has row dependencies := by
    rw [show FileDatabase.model.stored desk drawer = .empty from hempty]
    exact Tables.not_has_empty
  exact .load (.start hrooted hunused) (deskJob [] 0) ⟨"first", 1⟩ (uses_desk rfl [] 0)

/-- What the first build left behind. -/
theorem facts_filed : filed.working = desk.working ∧
    (Manifest.find filed ".").toOption.map Option.isNone = some true := by
  decide +kernel

/-- The database of the program can be used once it was opened. -/
theorem usable_of_openAt {disk opened : Disk} {path : Text} {store : Store}
    (h : Store.openAt disk path = (.ok store, opened)) :
    FileDatabase.model.IsReady store.connection opened := by
  obtain ⟨_, _, _, _, _, _, _, _, htimeout, himages, hfiles⟩ := Store.exists_setup_of_openAt h
  exact FileDatabase.usable_of_setup htimeout himages hfiles

/-- The cache answers a second build, with another search path, as it would come out without the
cache. -/
theorem cached_builds_fresh_or_earlier_wider :
    ∃ pasts store opened fresh, Sequence FileDatabase.model drawer pasts filed ∧
      Job.prepare filed (deskOptions "lib" 0) "main.br" = .ok (deskJob "lib" 0) ∧
        (deskJob "lib" 0).Uses filed drawer ∧
          Store.openAt filed (deskJob "lib" 0).options.cache = (.ok store, opened) ∧
            FileDatabase.model.IsReady store.connection opened ∧
            (∀ past ∈ pasts, ∀ file ∈ past.build.files,
              opened.digest file = past.disk.digest file → opened.read file = past.disk.read file) ∧
              Job.prepare filed { deskOptions "lib" 0 with noCache := true } "main.br" = .ok fresh ∧
                ((deskJob "lib" 0).load filed ⟨"second", 2⟩).2.toOption.map
                    (fun product => product.build.isNone) = some true ∧
                  outcome ((deskJob "lib" 0).load filed ⟨"second", 2⟩).2 =
                    outcome (fresh.load opened ⟨"second", 2⟩).2 := by
  have hfacts : ((deskJob [] 0).made desk ⟨"first", 1⟩).bind (fun past =>
      (Store.openAt filed "c.db").1.toOption.map fun _ => decide (
        (∀ file ∈ past.build.files, (past.disk.read file).toOption = some sinker ∧
          ((Store.openAt filed "c.db").2.read file).toOption = some sinker) ∧
        ((Store.openAt filed "c.db").2.read "main.br").toOption = some sinker ∧
        (∀ visit ∈ past.build.visits, visit.request? = none ∧ visit.depth ≤ 512) ∧
        (past.build.image past.stamp).Sound ∧ (past.build.image past.stamp).Brief Cbor.maxEntries)) =
      some true := by
    decide +kernel
  obtain ⟨past, hmade, hfacts⟩ := Option.bind_eq_some_iff.mp hfacts
  obtain ⟨store, hopens, hfacts⟩ := Option.map_eq_some_iff.mp hfacts
  obtain ⟨hunits, hsource, hvisits, hsound, hbrief⟩ := of_decide_eq_true hfacts
  have hopen := Store.eq_of_toOption hopens
  generalize (Store.openAt filed "c.db").2 = opened at hopen hunits hsource
  have hready := usable_of_openAt hopen
  have hsequence : Sequence FileDatabase.model drawer [past] filed := by
    have hfiled := sequence_filed
    rwa [hmade] at hfiled
  have hprepare := prepare_desk facts_filed.2 "lib" 0
  have huses := uses_desk facts_filed.1 "lib" 0
  have hdigests : ∀ other ∈ [past], ∀ file ∈ other.build.files,
      opened.digest file = other.disk.digest file → opened.read file = other.disk.read file := by
    intro other hother file hfile _
    obtain rfl := List.mem_singleton.mp hother
    obtain ⟨hpast, hnow⟩ := hunits file hfile
    rw [eq_ok_of_toOption hpast, eq_ok_of_toOption hnow]
  obtain ⟨fresh, hfresh, hsame⟩ := cached_builds_fresh_or_earlier FileDatabase.model Image.codec_conforms
    hsequence hprepare huses hopen hready ⟨"second", 2⟩ hdigests
  refine ⟨[past], store, opened, fresh, hsequence, hprepare, huses, hopen, hready, hdigests, hfresh,
    by decide +kernel, ?_⟩
  rcases hsame with hsame | ⟨other, hother, _, hanswer⟩
  · rw [hsame]
  · obtain rfl := List.mem_singleton.mp hother
    refine (hanswer hsound hbrief).2 ⟨⟨_, eq_ok_of_toOption hsource⟩,
      fun visit hvisit target origin h => ?_, fun visit hvisit => (hvisits visit hvisit).2⟩
    rw [(hvisits visit hvisit).1] at h
    cases h

/-- The cache does not look at the limit: it answers where a build without it is too deep. -/
theorem cached_build_beyond_limit :
    ∃ pasts fresh, Sequence FileDatabase.model drawer pasts filed ∧
      Job.prepare filed (deskOptions [] 1) "main.br" = .ok (deskJob [] 1) ∧
        (deskJob [] 1).Uses filed drawer ∧
          Job.prepare filed { deskOptions [] 1 with noCache := true } "main.br" = .ok fresh ∧
            outcome ((deskJob [] 1).load filed ⟨"second", 2⟩).2 ≠
              outcome (fresh.load filed ⟨"second", 2⟩).2 := by
  have hprepare := prepare_desk facts_filed.2 [] 1
  refine ⟨_, (deskJob [] 1).uncached, sequence_filed, hprepare, uses_desk facts_filed.1 [] 1,
    prepare_noCache hprepare, fun hsame => ?_⟩
  have hanswers : (outcome ((deskJob [] 1).load filed ⟨"second", 2⟩).2).toOption.isSome = true := by
    decide +kernel
  have hfails : (outcome ((deskJob [] 1).uncached.load filed ⟨"second", 2⟩).2).toOption.isSome =
      false := by
    decide +kernel
  rw [hsame, hfails] at hanswers
  cases hanswers

end Command

end Tapestry

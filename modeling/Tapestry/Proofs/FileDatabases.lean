import Tapestry.Cache.File
import Tapestry.Proofs.DatabaseLaws
import Tapestry.Proofs.ImageReading

/-!
# The database of the program

A reader gives back what a writer wrote and leaves what follows it. From numbers and texts this
carries over to lists of anything that can be read back, and so to the tables in a file. The database
that keeps its tables in a file does what databases are taken to do.
-/

namespace Tapestry

/-! ## Tables are read back -/

namespace Tables

open Cbor

/-- A reader gives back an item from its bytes and leaves what follows. -/
def ReadsBack {α : Type} (read : Reader α) (write : α → Text) (item : α) : Prop :=
  ∀ rest, read (write item ++ rest) = some (item, rest)

/-- A number fits the bytes it is given. -/
theorem lt_pow_width (n : Nat) : n < 256 ^ (n.log2 / 8 + 1) := by
  have hpow : (256 : Nat) = 2 ^ 8 := rfl
  rw [hpow, ← Nat.pow_mul]
  exact Nat.lt_of_lt_of_le Nat.lt_log2_self (Nat.pow_le_pow_right (by decide) (by omega))

/-- A number is read back, however large. -/
theorem readsBack_nat (n : Nat) : ReadsBack readNat? writeNat n := by
  intro rest
  obtain ⟨width, hwidth⟩ : ∃ width, width = n.log2 / 8 + 1 := ⟨_, rfl⟩
  have hones : ((List.replicate width 1 ++ 0 :: (Number.bigEndian width n ++ rest)).takeWhile
      fun b : UInt8 => b == 1) = List.replicate width 1 := by
    rw [List.takeWhile_append_of_pos (by simp), List.takeWhile_cons_of_neg (by decide),
      List.append_nil]
  have hbytes : take? width (Number.bigEndian width n ++ rest) =
      some (Number.bigEndian width n, rest) := by
    simpa using take?_append (Number.bigEndian width n) rest
  have hn : Number.ofBigEndian (Number.bigEndian width n) = n :=
    Number.ofBigEndian_bigEndian (hwidth ▸ lt_pow_width n)
  rw [writeNat, ← hwidth, List.append_assoc, List.cons_append, readNat?]
  simp only [hones, List.length_replicate, List.drop_left' List.length_replicate, hbytes,
    Option.map_some, hn]

/-- A number with a sign is read back. -/
theorem readsBack_int (n : Int) : ReadsBack readInt? writeInt n := by
  intro rest
  rw [writeInt, List.cons_append, readInt?, readsBack_nat, Option.map_some]
  by_cases hneg : n < 0
  · simp only [if_pos hneg, if_true]
    congr 2
    omega
  · simp only [if_neg hneg, if_neg (show ¬ (0 : UInt8) = 1 by decide)]
    congr 2
    omega

/-- A text is read back. -/
theorem readsBack_text (t : Text) : ReadsBack readText? writeText t := by
  intro rest
  rw [writeText, List.append_assoc, readText?, readsBack_nat]
  exact take?_append t rest

/-- A list is read back if its items are. -/
theorem readsBack_list {α : Type} {read : Reader α} {write : α → Text} {items : List α}
    (h : ∀ item ∈ items, ReadsBack read write item) :
    ReadsBack (readList? read) (writeList write) items := by
  intro rest
  have hitems := many?_flatMap h rest
  rw [List.map_id'] at hitems
  rw [writeList, List.append_assoc, readList?, readsBack_nat]
  exact hitems

/-- A row of the table of images is read back. -/
theorem readsBack_imageRow (row : ImageRow) : ReadsBack readImageRow? writeImageRow row := by
  intro rest
  simp only [writeImageRow, List.append_assoc, readImageRow?, readsBack_text _ _, readsBack_int _ _,
    Option.bind_eq_bind, Option.bind_some]
  rfl

/-- A row of the table of files is read back. -/
theorem readsBack_fileRow (row : FileRow) : ReadsBack readFileRow? writeFileRow row := by
  intro rest
  simp only [writeFileRow, List.append_assoc, readFileRow?, readsBack_text _ _, Option.bind_eq_bind,
    Option.bind_some]
  rfl

/-- Tables are read back as they were stored. -/
theorem read?_write (tables : Tables) : read? tables.write = some tables := by
  have himages := readsBack_list (fun row (_ : row ∈ tables.images) => readsBack_imageRow row)
  have hfiles := readsBack_list (fun row (_ : row ∈ tables.files) => readsBack_fileRow row) []
  rw [List.append_nil] at hfiles
  have htables : readTables? (writeList writeImageRow tables.images ++
      writeList writeFileRow tables.files) = some (tables, []) := by
    rw [readTables?, himages]
    simp only [Option.bind_eq_bind, Option.bind_some, hfiles]
    rfl
  have hheader : header ≠ [] := by decide
  rw [read?, write, if_neg (by simp [hheader]), if_pos (by simp), List.drop_left, htables]

end Tables

namespace FileDatabase

variable {database : FileDatabase} {disk : Disk} {place : Place}

/-! ## The file -/

/-- Saving writes the file of the database and nothing else. -/
theorem save_eq (database : FileDatabase) (disk : Disk) :
    database.save disk = disk ∨
      disk.entry? database.place.dropLast = some .directory ∧
        disk.entry? database.place ≠ some .directory ∧
          database.save disk = disk.insert database.place (.file database.view.lasting.write) := by
  unfold save
  split
  case isTrue h =>
    rw [Bool.and_eq_true, decide_eq_true_eq, bne_iff_ne] at h
    exact .inr ⟨h.1, h.2, rfl⟩
  case isFalse => exact .inl rfl

/-- The root is a directory, so no file takes its place. -/
theorem ne_nil_of_not_directory (h : disk.entry? place ≠ some .directory) : place ≠ [] := by
  rintro rfl
  exact h rfl

/-- Saving leaves the working directory. -/
theorem working_save (database : FileDatabase) (disk : Disk) :
    (database.save disk).working = disk.working := by
  rcases database.save_eq disk with h | ⟨_, _, h⟩ <;> rw [h]
  rfl

/-- Saving leaves the disk in order. -/
theorem rooted_save (hnamed : database.place.Named) (h : disk.Rooted) : (database.save disk).Rooted := by
  rcases database.save_eq disk with hsave | ⟨habove, hplace, hsave⟩
  · rwa [hsave]
  · rw [hsave]
    exact h.insert (ne_nil_of_not_directory hplace) hnamed habove fun hdirectory => absurd hdirectory hplace

/-- Saving stores the rows that last, or the file stays as it was. -/
theorem storedAt_save (database : FileDatabase) (disk : Disk) :
    storedAt (database.save disk) database.place = database.view.lasting ∨
      storedAt (database.save disk) database.place = storedAt disk database.place := by
  rcases database.save_eq disk with hsave | ⟨_, hplace, hsave⟩
  · exact .inr (by rw [hsave])
  · refine .inl ?_
    rw [hsave, storedAt, Disk.entry?_insert (ne_nil_of_not_directory hplace), if_pos rfl]
    simp only [Tables.read?_write, Option.getD_some]

/-! ## Statements -/

/-- The file at a place, if there is one, can be used. -/
def Usable (disk : Disk) (place : Place) : Prop :=
  ∀ statement, setupComplaint? disk place statement = none

/-- A file can be used just if it is no directory and holds tables. -/
theorem usable_iff : Usable disk place ↔ disk.entry? place ≠ some .directory ∧
    ∀ contents, disk.entry? place = some (.file contents) → (Tables.read? contents).isSome = true := by
  constructor
  · intro h
    constructor
    · intro hdirectory
      have hnone := h .setTimeout
      unfold setupComplaint? at hnone
      rw [hdirectory] at hnone
      cases hnone
    · intro contents hfile
      have hnone := h .createImages
      unfold setupComplaint? at hnone
      rw [hfile] at hnone
      by_contra hmissing
      rw [Bool.not_eq_true, Option.isSome_eq_false_iff] at hmissing
      simp [hmissing] at hnone
  · rintro ⟨hplace, hread⟩ statement
    unfold setupComplaint?
    split
    case h_1 hdirectory => exact absurd hdirectory hplace
    case h_2 contents hfile => simp [Option.isNone_eq_false_iff.mpr (hread contents hfile)]
    case h_3 => rfl

/-- A file can be used after saving. -/
theorem usable_save (h : Usable disk database.place) : Usable (database.save disk) database.place := by
  rcases database.save_eq disk with hsave | ⟨_, hplace, hsave⟩
  · rwa [hsave]
  · rw [usable_iff, hsave, Disk.entry?_insert (ne_nil_of_not_directory hplace), if_pos rfl]
    refine ⟨by simp, fun contents hcontents => ?_⟩
    obtain rfl := DiskEntry.file.inj (Option.some.inj hcontents)
    rw [Tables.read?_write]
    rfl

/-- What a statement comes to: it fails and changes nothing, or it is carried out, and the rows that
last may be saved. -/
theorem execute_cases (database : FileDatabase) (disk : Disk) (statement : Database.Statement) :
    (∃ complaint, database.execute disk statement = (.error complaint, database, disk) ∧
        (Usable disk database.place → statement.effect? database.view = none)) ∨
      ∃ view left, statement.effect? database.view = some view ∧
        setupComplaint? disk database.place statement = none ∧
          database.execute disk statement = (.ok (), { database with view }, left) ∧
            (left = disk ∨ left = FileDatabase.save { database with view } disk) := by
  unfold execute
  split
  case h_1 complaint hcomplaint =>
    refine .inl ⟨complaint, rfl, fun husable => ?_⟩
    cases hcomplaint.symm.trans (husable statement)
  case h_2 hsilent =>
    split
    case h_1 hrefused => exact .inl ⟨_, rfl, fun _ => hrefused⟩
    case h_2 view heffect =>
      refine .inr ⟨view, _, heffect, hsilent, rfl, ?_⟩
      split
      case isTrue => exact .inl rfl
      case isFalse => exact .inr rfl

/-- A statement follows the rules of relational databases. -/
theorem gives_execute (database : FileDatabase) (disk : Disk) (statement : Database.Statement) :
    statement.Gives database.view (database.execute disk statement).1
      (database.execute disk statement).2.1.view := by
  rcases database.execute_cases disk statement with
    ⟨complaint, hreply, _⟩ | ⟨view, left, heffect, _, hreply, _⟩
  · rw [hreply]
    exact .failed complaint
  · rw [hreply]
    exact .done heffect

/-- A statement stays with the file, and the file can be used afterwards as before. The rows that last
are stored, or the file stays as it was. -/
theorem execute_leaves (database : FileDatabase) (disk : Disk) (statement : Database.Statement) :
    (database.execute disk statement).2.1.place = database.place ∧
      (database.execute disk statement).2.2.working = disk.working ∧
        (Usable disk database.place → Usable (database.execute disk statement).2.2 database.place) ∧
          (database.place.Named → disk.Rooted → (database.execute disk statement).2.2.Rooted) ∧
            (storedAt (database.execute disk statement).2.2 database.place =
                (database.execute disk statement).2.1.view.lasting ∨
              storedAt (database.execute disk statement).2.2 database.place =
                storedAt disk database.place) := by
  rcases database.execute_cases disk statement with
    ⟨complaint, hreply, _⟩ | ⟨view, left, _, _, hreply, rfl | rfl⟩
  · rw [hreply]
    exact ⟨rfl, rfl, id, fun _ => id, .inr rfl⟩
  · rw [hreply]
    exact ⟨rfl, rfl, id, fun _ => id, .inr rfl⟩
  · rw [hreply]
    exact ⟨rfl, working_save _ _, @usable_save { database with view } disk,
      @rooted_save { database with view } disk, storedAt_save { database with view } disk⟩

/-- A statement that the rules admit is carried out on a file that can be used. -/
theorem execute_eq_ok {statement : Database.Statement} {after : Database.View}
    (h : Usable disk database.place) (heffect : statement.effect? database.view = some after) :
    (database.execute disk statement).1 = .ok () := by
  rcases database.execute_cases disk statement with ⟨_, _, hrefused⟩ | ⟨_, _, _, _, hreply, _⟩
  · cases heffect.symm.trans (hrefused h)
  · rw [hreply]

/-- A file that was set up can be used. -/
theorem usable_of_setup {second third last : FileDatabase} {disk₁ disk₂ disk₃ : Disk}
    (htimeout : database.execute disk .setTimeout = (.ok (), second, disk₁))
    (himages : second.execute disk₁ .createImages = (.ok (), third, disk₂))
    (hfiles : third.execute disk₂ .createFiles = (.ok (), last, disk₃)) :
    Usable disk₃ last.place := by
  have hsilent {database next : FileDatabase} {disk left : Disk} {statement : Database.Statement}
      (h : database.execute disk statement = (.ok (), next, left)) :
      setupComplaint? disk database.place statement = none := by
    rcases database.execute_cases disk statement with ⟨_, hreply, _⟩ | ⟨_, _, _, hsilent, _, _⟩
    · cases hreply.symm.trans h
    · exact hsilent
  -- The first statement does not touch the disk, and finds no directory.
  have hnone := hsilent htimeout
  have hsame : second.place = database.place ∧ disk₁ = disk := by
    rw [execute, hnone] at htimeout
    obtain ⟨-, hrest⟩ := Prod.mk.inj htimeout
    cases hrest
    exact ⟨rfl, rfl⟩
  obtain ⟨hplace, rfl⟩ := hsame
  have husable : Usable disk₁ second.place := by
    have hread := hsilent himages
    rw [hplace] at hread ⊢
    unfold setupComplaint? at hnone hread
    refine usable_iff.mpr ⟨fun hdirectory => ?_, fun contents hfile => ?_⟩
    · rw [hdirectory] at hnone
      cases hnone
    · rw [hfile] at hread
      by_contra hmissing
      rw [Bool.not_eq_true, Option.isSome_eq_false_iff] at hmissing
      simp [hmissing] at hread
  obtain ⟨hthird, -, hkept, -⟩ := second.execute_leaves disk₁ .createImages
  rw [himages] at hthird hkept
  obtain ⟨hlast, -, hstill, -⟩ := third.execute_leaves disk₂ .createFiles
  rw [hfiles] at hlast hstill
  dsimp only at hthird hkept hlast hstill
  rw [hthird] at hstill hlast
  rw [hlast]
  exact hstill (hkept husable)

/-- The database of the program does what databases are taken to do. -/
def model : Database.Model where
  view database := FileDatabase.view database
  file database := FileDatabase.place database
  stored := storedAt
  Owns file place := place = file
  IsReady database disk := Usable disk (FileDatabase.place database)
  stored_of_no_file {disk place} h := by
    unfold storedAt
    split
    case h_1 contents hfile => exact absurd hfile (h contents)
    case h_2 => rfl
  stored_of_furnished {disk made} h place := by
    unfold storedAt
    rcases h.entries place with hsame | ⟨hnone, hmade⟩
    · rw [hsame]
    · rw [hnone, hmade]
  file_of_connect h := by
    cases h
    rfl
  view_of_connect h := by
    cases h
    rfl
  ready_of_setup _ _ htimeout himages hfiles := usable_of_setup htimeout himages hfiles
  gives := gives_execute
  carries_out hready heffect := execute_eq_ok hready heffect
  ready_of_execute {database disk} statement hready := by
    obtain ⟨hplace, -, hkept, -⟩ := execute_leaves database disk statement
    exact hplace ▸ hkept hready
  ready_of_spared {database disk other} hready hspared := by
    rw [usable_iff] at hready ⊢
    rwa [hspared _ rfl]
  file_of_execute database disk statement := (execute_leaves database disk statement).1
  stored_of_execute database disk statement := (execute_leaves database disk statement).2.2.2.2
  working_of_execute database disk statement := (execute_leaves database disk statement).2.1
  rooted_of_execute {database disk} statement := (execute_leaves database disk statement).2.2.2.1
  bytesOf_eq _ _ := rfl
  filesOf_eq _ _ := rfl
  images_eq _ := rfl

end FileDatabase

end Tapestry

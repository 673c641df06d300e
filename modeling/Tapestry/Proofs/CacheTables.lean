import Tapestry.Cache.Store
import Tapestry.Cache.Tables
import Tapestry.Proofs.ScopeContents

/-!
# The tables of the cache

What each statement does to the two tables of the cache, told by the image and the files that are under
a name afterwards. The statements of an entry put its image in place of the one under its name, and
the files under the name are then those it came with. They are refused just at a file that is listed
twice.

The entries are the images in strictly ascending order of their names, as long as no two images are
under one name, and the files of each are in strictly ascending order, as long as no file is twice
under one name.
-/

namespace Tapestry

/-- Items with different keys are sorted in strictly ascending order of the keys. -/
theorem Text.pairwise_lt_mergeSort {α : Type} (key : α → Text) {items : List α}
    (h : (items.map key).Nodup) :
    ((items.mergeSort fun a b => atMost (key a) (key b)).map key).Pairwise (· < ·) := by
  have hordered : (items.mergeSort fun a b => atMost (key a) (key b)).Pairwise
      fun a b => atMost (key a) (key b) = true := by
    refine List.pairwise_mergeSort (fun a b c hab hbc => ?_) (fun a b => ?_) items
    · simp only [atMost, decide_eq_true_eq] at hab hbc ⊢
      exact Std.le_trans hab hbc
    · simp only [atMost, Bool.or_eq_true, decide_eq_true_eq]
      exact Std.le_total
  have hdistinct : ((items.mergeSort fun a b => atMost (key a) (key b)).map key).Nodup :=
    ((List.mergeSort_perm items _).map key).nodup_iff.mpr h
  rw [List.pairwise_map]
  refine (hordered.and (List.pairwise_map.mp hdistinct)).imp fun {a b} hboth => ?_
  exact Std.lt_of_le_of_ne (of_decide_eq_true hboth.1) hboth.2

/-! ## The digests of files -/

namespace Disk

variable {disk : Disk} {files : List Text} {found : List Dependency} {dependency : Dependency}

/-- The digests of files are kept in the order of the files. -/
theorem files_of_dependencies (h : disk.dependencies files = .ok found) :
    found.map Dependency.file = files := by
  induction files generalizing found with
  | nil =>
    cases h
    rfl
  | cons first rest ih =>
    obtain ⟨digest, _, hothers⟩ := exists_of_bind_eq_ok h
    obtain ⟨others, hrest, hfound⟩ := exists_of_bind_eq_ok hothers
    cases hfound
    rw [List.map_cons, ih hrest]

/-- The files and the digests they have are kept, and nothing else. -/
theorem mem_dependencies (h : disk.dependencies files = .ok found) :
    dependency ∈ found ↔ dependency.file ∈ files ∧
      disk.digest dependency.file = .ok dependency.digest := by
  induction files generalizing found with
  | nil =>
    cases h
    simp
  | cons first rest ih =>
    obtain ⟨digest, hdigest, hothers⟩ := exists_of_bind_eq_ok h
    obtain ⟨others, hrest, hfound⟩ := exists_of_bind_eq_ok hothers
    cases hfound
    rw [List.mem_cons, List.mem_cons, ih hrest]
    constructor
    · rintro (rfl | ⟨hfile, hsame⟩)
      · exact ⟨.inl rfl, hdigest⟩
      · exact ⟨.inr hfile, hsame⟩
    · rintro ⟨rfl | hfile, hsame⟩
      · rw [hdigest] at hsame
        exact .inl (by rw [Except.ok.inj hsame])
      · exact .inr ⟨hfile, hsame⟩

/-- The digest of every file is taken. -/
theorem exists_of_dependencies (h : disk.dependencies files = .ok found) :
    ∀ file ∈ files, ∃ digest, disk.digest file = .ok digest ∧ ⟨file, digest⟩ ∈ found := by
  rw [← files_of_dependencies h, List.forall_mem_map]
  intro dependency hmem
  exact ⟨dependency.digest, ((mem_dependencies h).mp hmem).2, hmem⟩

/-- If digests cannot be taken, one of the files cannot be read. -/
theorem exists_of_dependencies_error {fault : CacheFault}
    (h : disk.dependencies files = .error fault) :
    ∃ file ∈ files, disk.digest file = .error fault := by
  induction files with
  | nil => cases h
  | cons first rest ih =>
    cases hfirst : disk.digest first with
    | error found =>
      rw [dependencies, hfirst] at h
      cases h
      exact ⟨first, List.mem_cons_self, hfirst⟩
    | ok digest =>
      cases hrest : disk.dependencies rest with
      | error found =>
        rw [dependencies, hfirst, hrest] at h
        cases h
        obtain ⟨file, hfile, hdigest⟩ := ih hrest
        exact ⟨file, List.mem_cons_of_mem _ hfile, hdigest⟩
      | ok others =>
        rw [dependencies, hfirst, hrest] at h
        cases h

/-- A file is what it was if it has the digest it had. -/
theorem isFresh_iff :
    disk.isFresh dependency = true ↔ disk.digest dependency.file = .ok dependency.digest := by
  unfold isFresh
  split
  case h_1 digest hdigest => rw [hdigest, beq_iff_eq, Except.ok.injEq]
  case h_2 fault hfault => simp [hfault]

end Disk

namespace Tables

variable {tables : Tables} {disk : Disk} {name other : Text} {row : ImageRow}
  {found dependencies : List Dependency}

/-! ## Changes to the tables -/

/-- No image is under a name once it was dropped, and the others are as they were. -/
@[simp]
theorem find?_dropImage : (tables.dropImage name).find? other =
    if other = name then none else tables.find? other := by
  rw [find?, dropImage, List.find?_filter, find?]
  split
  case isTrue h => simp [h]
  case isFalse h =>
    congr 1
    funext row
    by_cases hrow : row.name = other <;> simp [hrow, h]

/-- Dropping an image leaves the files. -/
@[simp]
theorem filesOf_dropImage : (tables.dropImage name).filesOf other = tables.filesOf other := rfl

/-- Dropping files leaves the images. -/
@[simp]
theorem find?_dropFiles : (tables.dropFiles name).find? other = tables.find? other := rfl

/-- No file is under a name once they were dropped, and the others are as they were. -/
@[simp]
theorem filesOf_dropFiles : (tables.dropFiles name).filesOf other =
    if other = name then [] else tables.filesOf other := by
  rw [filesOf, dropFiles, List.filter_filter, filesOf]
  split
  case isTrue h => simp [h]
  case isFalse h =>
    congr 2
    funext row
    by_cases hrow : row.name = other <;> simp [hrow, h]

/-- An image is found under its name, and the others are as they were. -/
@[simp]
theorem find?_saveImage : (tables.saveImage row).find? other =
    if other = row.name then some row else tables.find? other := by
  have hothers : (tables.dropImage row.name).find? other =
      if other = row.name then none else tables.find? other := find?_dropImage
  rw [find?] at hothers
  rw [find?, saveImage, List.find?_cons]
  by_cases h : other = row.name
  · simp [h]
  · have hname : (row.name == other) = false := by simpa using Ne.symm h
    simp only [hname, hothers, if_neg h]

/-- Putting in an image leaves the files. -/
@[simp]
theorem filesOf_saveImage : (tables.saveImage row).filesOf other = tables.filesOf other := rfl

/-- Add files under a name. -/
def addFiles (tables : Tables) (name : Text) (found : List Dependency) : Tables :=
  { tables with files := (found.map (FileRow.mk name)).reverse ++ tables.files }

/-- Adding files leaves the images. -/
@[simp]
theorem find?_addFiles : (tables.addFiles name found).find? other = tables.find? other := rfl

/-- Files that were added come before those that were there. -/
@[simp]
theorem filesOf_addFiles : (tables.addFiles name found).filesOf other =
    if other = name then found.reverse ++ tables.filesOf other else tables.filesOf other := by
  rw [filesOf, addFiles, List.filter_append, List.map_append, ← List.map_reverse, List.filter_map,
    filesOf]
  split
  case isTrue h => simp [h, Function.comp_def]
  case isFalse h => simp [Ne.symm h, Function.comp_def]

/-- A file is refused just if it is there already. -/
theorem saveFile?_eq {dependency : Dependency} :
    tables.saveFile? name dependency =
      if dependency.file ∈ (tables.filesOf name).map Dependency.file then none
      else some (tables.addFiles name [dependency]) := by
  rw [saveFile?]
  congr 1
  simp [filesOf, and_assoc]

/-- The tables with an image and files in place of those under its name. -/
def replace (tables : Tables) (row : ImageRow) (found : List Dependency) : Tables :=
  ((tables.saveImage row).dropFiles row.name).addFiles row.name found

/-- An image is found under its name after it was put in. -/
theorem find?_replace : (tables.replace row found).find? other =
    if other = row.name then some row else tables.find? other := by
  simp [replace]

/-- The files under a name are those of the image that was put in. -/
theorem filesOf_replace : (tables.replace row found).filesOf other =
    if other = row.name then found.reverse else tables.filesOf other := by
  by_cases h : other = row.name <;> simp [replace, h]

/-- The tables without the entry under a name. -/
def drop (tables : Tables) (name : Text) : Tables := (tables.dropImage name).dropFiles name

/-- No image is under a name that was dropped. -/
theorem find?_drop : (tables.drop name).find? other =
    if other = name then none else tables.find? other := by
  simp [drop]

/-- No file is under a name that was dropped. -/
theorem filesOf_drop : (tables.drop name).filesOf other =
    if other = name then [] else tables.filesOf other := by
  simp [drop]

/-! ## Names -/

/-- No two images are under one name. -/
def Distinct (tables : Tables) : Prop := (tables.images.map ImageRow.name).Nodup

/-- An image that is put in takes the place of the one under its name. -/
theorem Distinct.replace (h : tables.Distinct) (row : ImageRow) (found : List Dependency) :
    (tables.replace row found).Distinct := by
  change ((row :: tables.images.filter (·.name != row.name)).map ImageRow.name).Nodup
  rw [List.map_cons, List.nodup_cons]
  refine ⟨fun hmem => ?_, h.sublist (List.filter_sublist.map _)⟩
  obtain ⟨other, hother, hname⟩ := List.mem_map.mp hmem
  simpa [hname] using (List.mem_filter.mp hother).2

/-- Dropping an image leaves the others under different names. -/
theorem Distinct.drop (h : tables.Distinct) (name : Text) : (tables.drop name).Distinct :=
  h.sublist (List.filter_sublist.map _)

/-- An image is found under its name just if it is there. -/
theorem Distinct.find?_eq_some_iff (h : tables.Distinct) :
    tables.find? name = some row ↔ row ∈ tables.images ∧ row.name = name := by
  rw [find?, find?_name_eq_some_iff h]

/-- The names of the images in order are strictly ascending. -/
theorem Distinct.pairwise_ordered (h : tables.Distinct) :
    (tables.ordered.map ImageRow.name).Pairwise (· < ·) :=
  Text.pairwise_lt_mergeSort ImageRow.name h

/-- An image is listed just if it is there. -/
theorem mem_ordered : row ∈ tables.ordered ↔ row ∈ tables.images := List.mem_mergeSort

/-! ## Entries -/

/-- An image is there with files. -/
def Has (tables : Tables) (row : ImageRow) (dependencies : List Dependency) : Prop :=
  row ∈ tables.images ∧ dependencies = tables.dependenciesOf row.name

/-- There are no entries in empty tables. -/
theorem not_has_empty : ¬ empty.Has row dependencies :=
  fun h => List.not_mem_nil h.1

/-- An entry after an image was put in is the one of the image, or was there before. -/
theorem Has.of_replace {latest : ImageRow} (h : (tables.replace latest found).Has row dependencies) :
    row = latest ∧ dependencies.Perm found ∨ tables.Has row dependencies := by
  obtain ⟨hrow, hdependencies⟩ := h
  rw [dependenciesOf, filesOf_replace] at hdependencies
  rcases List.mem_cons.mp hrow with rfl | hold
  · rw [if_pos rfl] at hdependencies
    refine .inl ⟨rfl, ?_⟩
    rw [hdependencies]
    exact (List.mergeSort_perm _ _).trans (List.reverse_perm found)
  · obtain ⟨hmem, hother⟩ := List.mem_filter.mp hold
    have hname : row.name ≠ latest.name := by simpa using hother
    rw [if_neg hname] at hdependencies
    exact .inr ⟨hmem, hdependencies⟩

end Tables

/-! ## Scripts -/

namespace Database

/-- The view that statements lead to in turn, if none of them is refused. -/
def View.after? (view : View) : List (Text × Statement) → Option View
  | [] => some view
  | step :: rest => (step.2.effect? view).bind fun next => next.after? rest

/-- Statements lead to a view in turn, up to one that fails; what it was to do is named. If the database
is sure to carry out what it can, the statement is refused. -/
inductive View.StopsAt (sure : Prop) : View → List (Text × Statement) → Text → View → Prop where
  | here {view step rest} (refused : sure → step.2.effect? view = none) :
    StopsAt sure view (step :: rest) step.1 view
  | later {view step rest next action reached} (done : step.2.effect? view = some next)
      (stops : StopsAt sure next rest action reached) : StopsAt sure view (step :: rest) action reached

/-- The statements of a script keep something that holds of the view. -/
def Keeps (holds : View → Prop) (script : List (Text × Statement)) : Prop :=
  ∀ step ∈ script, ∀ ⦃view after : View⦄, holds view → step.2.effect? view = some after → holds after

section Scripts

variable {sure : Prop} {view reached : View} {script : List (Text × Statement)} {action : Text}
  {holds : View → Prop}

/-- What a script keeps holds in the end. -/
theorem View.holds_of_after? (hscript : Keeps holds script) (hview : holds view)
    (h : view.after? script = some reached) : holds reached := by
  induction script generalizing view with
  | nil => exact Option.some.inj h ▸ hview
  | cons step rest ih =>
    obtain ⟨hstep, hrest⟩ := List.forall_mem_cons.mp hscript
    obtain ⟨next, hnext, h⟩ := Option.bind_eq_some_iff.mp h
    exact ih hrest (hstep hview hnext) h

/-- What a script keeps holds where it stops. -/
theorem View.holds_of_stopsAt (hscript : Keeps holds script) (hview : holds view)
    (h : view.StopsAt sure script action reached) : holds reached := by
  induction h with
  | here _ => exact hview
  | later done _ ih =>
    obtain ⟨hstep, hrest⟩ := List.forall_mem_cons.mp hscript
    exact ih hrest (hstep hview done)

end Scripts

end Database

namespace Store

open Database

variable {sure : Prop} {view reached : View} {row : ImageRow} {name action : Text}
  {found : List Dependency}

/-- The statement that adds a file, with what it is to do. -/
def fileStep (name : Text) (dependency : Dependency) : Text × Database.Statement :=
  (Text.ofString "saving dep " ++ dependency.file, .saveFile name dependency)

/-- Files are added one by one just if they are different from each other and from those there are. -/
theorem after?_map_fileStep (hkept : ((view.rows.filesOf name).map Dependency.file).Nodup) :
    view.after? (found.map (fileStep name)) =
      if ((view.rows.filesOf name ++ found).map Dependency.file).Nodup then
        some { view with rows := view.rows.addFiles name found }
      else none := by
  induction found generalizing view with
  | nil =>
    rw [List.append_nil, if_pos hkept]
    rfl
  | cons first rest ih =>
    rw [List.map_cons, View.after?, fileStep, Database.Statement.effect?, Tables.saveFile?_eq]
    split
    case isTrue hmem =>
      have hrefused : ¬ ((view.rows.filesOf name ++ first :: rest).map Dependency.file).Nodup := by
        rw [List.map_append, List.map_cons]
        exact fun hnodup => (List.nodup_append.mp hnodup).2.2 _ hmem _ List.mem_cons_self rfl
      rw [if_neg hrefused]
      rfl
    case isFalse hmem =>
      -- The file that was added stands before those that were there, which only changes the order.
      have hfiles : (view.rows.addFiles name [first]).filesOf name = first :: view.rows.filesOf name := by
        simp
      have hperm : ((first :: view.rows.filesOf name ++ rest).map Dependency.file).Perm
          ((view.rows.filesOf name ++ first :: rest).map Dependency.file) :=
        List.perm_middle.symm.map _
      have hrest := @ih { view with rows := view.rows.addFiles name [first] }
        (by rw [hfiles]; exact List.nodup_cons.mpr ⟨hmem, hkept⟩)
      rw [hfiles, ite_congr hperm.nodup_iff.eq (fun _ => rfl) fun _ => rfl] at hrest
      have hadded : (view.rows.addFiles name [first]).addFiles name rest =
          view.rows.addFiles name (first :: rest) := by
        simp [Tables.addFiles]
      rw [hadded] at hrest
      exact hrest

/-- Adding files stops just at one that is there already. -/
theorem exists_of_stopsAt_fileStep (h : view.StopsAt sure (found.map (fileStep name)) action reached)
    (hsure : sure) :
    ∃ file, 2 ≤ ((view.rows.filesOf name ++ found).map Dependency.file).count file ∧
      action = Text.ofString "saving dep " ++ file := by
  induction found generalizing view with
  | nil => cases h
  | cons first rest ih =>
    cases h with
    | here refused =>
      have hrefused := refused hsure
      rw [fileStep, Database.Statement.effect?, Option.map_eq_none_iff, Tables.saveFile?_eq,
        ite_eq_left_iff] at hrefused
      refine ⟨first.file, ?_, rfl⟩
      have hthere : first.file ∈ (reached.rows.filesOf name).map Dependency.file := by
        by_contra hmissing
        cases hrefused hmissing
      have hcount := List.one_le_count_iff.mpr hthere
      rw [List.map_append, List.count_append, List.map_cons, List.count_cons_self]
      omega
    | later done stops =>
      obtain ⟨rows, hrows, rfl⟩ := Option.map_eq_some_iff.mp done
      rw [Tables.saveFile?_eq] at hrows
      split at hrows
      case isTrue => cases hrows
      case isFalse =>
        -- The file that was added stands before those that were there, which only changes the order.
        cases hrows
        obtain ⟨file, hcount, haction⟩ := ih stops
        refine ⟨file, ?_, haction⟩
        rw [Tables.filesOf_addFiles, if_pos rfl] at hcount
        have hperm : (([first].reverse ++ view.rows.filesOf name ++ rest).map Dependency.file).Perm
            ((view.rows.filesOf name ++ first :: rest).map Dependency.file) :=
          List.perm_middle.symm.map _
        rwa [hperm.count_eq] at hcount

/-- The statements of an entry stay inside a transaction. -/
theorem keeps_entryScript (row : ImageRow) (found : List Dependency) (before : Option Tables) :
    Keeps (fun view => view.before = before) (entryScript row found) := by
  rw [Keeps, entryScript, List.forall_mem_cons, List.forall_mem_cons, List.forall_mem_map]
  refine ⟨fun view after hview h => ?_, fun view after hview h => ?_, fun _ _ view after hview h => ?_⟩
  · rwa [← Option.some.inj h]
  · rwa [← Option.some.inj h]
  · obtain ⟨rows, -, rfl⟩ := Option.map_eq_some_iff.mp h
    exact hview

/-- The statements of an entry put it in place of the one under its name, just if no file is listed
twice. -/
theorem after?_entryScript : view.after? (entryScript row found) =
    if (found.map Dependency.file).Nodup then some { view with rows := view.rows.replace row found }
    else none := by
  have hcleared : ((view.rows.saveImage row).dropFiles row.name).filesOf row.name = [] := by simp
  have hfiles := @after?_map_fileStep
    { view with rows := (view.rows.saveImage row).dropFiles row.name } row.name found
    (by rw [hcleared]; exact List.nodup_nil)
  rw [hcleared, List.nil_append] at hfiles
  exact hfiles

/-- The statements of an entry stop just at a file that is listed twice. -/
theorem exists_of_stopsAt_entryScript (h : view.StopsAt sure (entryScript row found) action reached)
    (hsure : sure) :
    ∃ file, 2 ≤ (found.map Dependency.file).count file ∧
      action = Text.ofString "saving dep " ++ file := by
  cases h with
  | here refused => cases refused hsure
  | later done stops =>
    cases done
    cases stops with
    | here refused => cases refused hsure
    | later done stops =>
      cases done
      obtain ⟨file, hcount, haction⟩ := exists_of_stopsAt_fileStep stops hsure
      have hcleared : ((view.rows.saveImage row).dropFiles row.name).filesOf row.name = [] := by simp
      rw [hcleared, List.nil_append] at hcount
      exact ⟨file, hcount, haction⟩

end Store

end Tapestry

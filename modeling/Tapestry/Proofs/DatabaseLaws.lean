import Tapestry.Proofs.CacheTables
import Tapestry.Proofs.DiskPaths

/-!
# What a database is taken to do

A database shows rows to whoever uses it, and stores rows in a file. A statement is carried out by the
rules of relational databases, or it fails and changes no rows. Changes inside a transaction are
stored when it is committed. A database that was set up anew is ready: it carries out every statement
that the rules admit and answers every query, as long as nobody else touches its files.

From this follows what the requests to a store do. An entry that cannot be put in leaves the rows as
they were, since the transaction it was begun in is undone.
-/

namespace Tapestry

namespace Database

/-- What comes of a statement by the rules of relational databases: it is carried out, or it fails and
changes no rows. -/
inductive Statement.Gives (view : View) (statement : Statement) : Except Text Unit → View → Prop where
  | done {after} (effect : statement.effect? view = some after) : Gives view statement (.ok ()) after
  | failed (complaint) : Gives view statement (.error complaint) view

/-- What a database is taken to do. -/
structure Model [Database] where
  /-- The rows that a connection shows. -/
  view : Connection → View
  /-- The place of the file that a connection uses. -/
  file : Connection → Place
  /-- The rows that are stored in the file at a place. -/
  stored : Disk → Place → Tables
  /-- The places of the files that belong to the database in a file, such as its journal. -/
  Owns : Place → Place → Prop
  /-- The connection can be used on a disk. -/
  IsReady : Connection → Disk → Prop
  /-- Nothing is stored where there is no file. -/
  stored_of_no_file : ∀ {disk place}, (∀ contents, disk.entry? place ≠ some (.file contents)) →
    stored disk place = .empty
  /-- New directories do not change what is stored. -/
  stored_of_furnished : ∀ {disk made : Disk}, disk.Furnished made → ∀ place,
    stored made place = stored disk place
  /-- A path leads to the file it names. -/
  file_of_connect : ∀ {disk path connection}, connect disk path = .ok connection →
    file connection = disk.placeOf path
  /-- At first the rows are shown that are stored. -/
  view_of_connect : ∀ {disk path connection}, connect disk path = .ok connection →
    view connection = ⟨stored disk (disk.placeOf path), none⟩
  /-- A database that was not there can be used once it is set up. -/
  ready_of_setup : ∀ {disk path first second third last disk₁ disk₂ disk₃},
    (∀ contents, disk.entry? (disk.placeOf path) ≠ some (.file contents)) →
    connect disk path = .ok first →
    execute first disk .setTimeout = (.ok (), second, disk₁) →
    execute second disk₁ .createImages = (.ok (), third, disk₂) →
    execute third disk₂ .createFiles = (.ok (), last, disk₃) → IsReady last disk₃
  /-- A statement follows the rules of relational databases. -/
  gives : ∀ connection disk statement, Statement.Gives (view connection) statement
    (execute connection disk statement).1 (view (execute connection disk statement).2.1)
  /-- A statement that the rules admit is carried out. -/
  carries_out : ∀ {connection disk statement after}, IsReady connection disk →
    statement.effect? (view connection) = some after → (execute connection disk statement).1 = .ok ()
  /-- A database can be used after a statement, whether or not it was carried out. -/
  ready_of_execute : ∀ {connection disk} statement, IsReady connection disk →
    IsReady (execute connection disk statement).2.1 (execute connection disk statement).2.2
  /-- A database can be used while its own files are left alone. -/
  ready_of_spared : ∀ {connection disk other}, IsReady connection disk →
    (∀ place, Owns (file connection) place → other.entry? place = disk.entry? place) →
      IsReady connection other
  /-- A statement stays with the file. -/
  file_of_execute : ∀ connection disk statement,
    file (execute connection disk statement).2.1 = file connection
  /-- The rows that last are stored, or the file stays as it was. -/
  stored_of_execute : ∀ connection disk statement,
    stored (execute connection disk statement).2.2 (file connection) =
        (view (execute connection disk statement).2.1).lasting ∨
      stored (execute connection disk statement).2.2 (file connection) = stored disk (file connection)
  /-- A statement leaves the working directory. -/
  working_of_execute : ∀ connection disk statement,
    (execute connection disk statement).2.2.working = disk.working
  /-- A statement leaves the disk in order. -/
  rooted_of_execute : ∀ {connection disk} statement, (file connection).Named → disk.Rooted →
    (execute connection disk statement).2.2.Rooted
  /-- A query gives the image under a name. -/
  bytesOf_eq : ∀ {connection disk} name, IsReady connection disk →
    bytesOf connection name = .ok (((view connection).rows.find? name).map ImageRow.bytes)
  /-- A query gives the files under a name in order. -/
  filesOf_eq : ∀ {connection disk} name, IsReady connection disk →
    filesOf connection name = .ok ((view connection).rows.dependenciesOf name)
  /-- A query gives the images in order. -/
  images_eq : ∀ {connection disk}, IsReady connection disk →
    images connection = .ok ((view connection).rows.ordered.map ImageRow.summary)

end Database

namespace Store

open Database

section Statements

variable [Database] {model : Model} {sure : Prop} {store next : Store} {disk left : Disk}
  {view : View} {good : Tables → Prop}

/-! ## Statements -/

/-- A store is open and shows rows. If it is sure, its database can be used. -/
structure Shows (model : Model) (sure : Prop) (store : Store) (disk : Disk) (view : View) : Prop where
  isOpen : store.isOpen = true
  view_eq : model.view store.connection = view
  ready : sure → model.IsReady store.connection disk

/-- What requests leave of a disk, where a property of tables holds of those that are stored. -/
structure Leaves (model : Model) (good : Tables → Prop) (store : Store) (disk : Disk) (next : Store)
    (left : Disk) : Prop where
  file_eq : model.file next.connection = model.file store.connection
  working_eq : left.working = disk.working
  rooted : (model.file store.connection).Named → disk.Rooted → left.Rooted
  stored : good (model.stored disk (model.file store.connection)) →
    good (model.stored left (model.file store.connection))

/-- Nothing happens to a disk that is left alone. -/
theorem Leaves.refl : Leaves model good store disk store disk :=
  ⟨rfl, rfl, fun _ h => h, fun h => h⟩

/-- What requests leave in turn. -/
theorem Leaves.trans {last : Store} {final : Disk} (h : Leaves model good store disk next left)
    (hlast : Leaves model good next left last final) :
    Leaves model good store disk last final where
  file_eq := hlast.file_eq.trans h.file_eq
  working_eq := hlast.working_eq.trans h.working_eq
  rooted hnamed hrooted := hlast.rooted (h.file_eq ▸ hnamed) (h.rooted hnamed hrooted)
  stored hgood := h.file_eq ▸ hlast.stored (h.file_eq ▸ h.stored hgood)

/-- A statement is sent to the database of an open store. -/
theorem execute_of_isOpen (h : store.isOpen = true) (disk : Disk) (action : Text)
    (statement : Database.Statement) :
    store.execute disk action statement =
      ((Database.execute store.connection disk statement).1.mapError (.database action),
        { store with connection := (Database.execute store.connection disk statement).2.1 },
        (Database.execute store.connection disk statement).2.2) := by
  rw [execute, if_pos h]
  obtain ⟨result, connection, left⟩ := Database.execute store.connection disk statement
  cases result <;> rfl

/-- A statement is carried out, or it fails and changes no rows. If the store is sure, it fails only if
it is refused. -/
theorem Shows.execute (h : Shows model sure store disk view) (action : Text)
    (statement : Database.Statement) :
    (∃ after next left, statement.effect? view = some after ∧
        store.execute disk action statement = (.ok (), next, left) ∧ Shows model sure next left after) ∨
      ∃ complaint next left, (sure → statement.effect? view = none) ∧
        store.execute disk action statement = (.error (.database action complaint), next, left) ∧
          Shows model sure next left view := by
  have hgives := model.gives store.connection disk statement
  have hready (hsure : sure) := model.ready_of_execute statement (h.ready hsure)
  have hcarries (hsure : sure) {after : View} (hafter : statement.effect? view = some after) :
      (Database.execute store.connection disk statement).1 = .ok () :=
    model.carries_out (h.ready hsure) (h.view_eq ▸ hafter)
  rw [execute_of_isOpen h.isOpen]
  rw [h.view_eq] at hgives
  generalize Database.execute store.connection disk statement = reply at hgives hready hcarries
  obtain ⟨result, connection, left⟩ := reply
  dsimp only at hgives hready hcarries ⊢
  generalize hview : model.view connection = shown at hgives
  cases hgives with
  | done effect => exact .inl ⟨shown, _, left, effect, rfl, h.isOpen, hview, hready⟩
  | failed complaint =>
    refine .inr ⟨complaint, _, left, fun hsure => ?_, rfl, h.isOpen, hview, hready⟩
    cases heffect : statement.effect? view with
    | none => rfl
    | some after => cases hcarries hsure heffect

/-- A statement leaves what was stored or stores the rows that last. -/
theorem Shows.leaves_execute {statement : Database.Statement} (h : Shows model sure store disk view)
    (action : Text) (hview : good view.lasting)
    (hgood : ∀ {after : View}, statement.effect? view = some after → good after.lasting) :
    Leaves model good store disk (store.execute disk action statement).2.1
      (store.execute disk action statement).2.2 := by
  have hlasting : good (model.view (store.execute disk action statement).2.1.connection).lasting := by
    rcases h.execute action statement with
      ⟨after, next, left, heffect, hreply, hshows⟩ | ⟨_, next, left, _, hreply, hshows⟩
    · rw [hreply, hshows.view_eq]
      exact hgood heffect
    · rw [hreply, hshows.view_eq]
      exact hview
  rw [execute_of_isOpen h.isOpen] at hlasting ⊢
  refine ⟨model.file_of_execute _ _ _, model.working_of_execute _ _ _, model.rooted_of_execute _,
    fun hstored => ?_⟩
  rcases model.stored_of_execute store.connection disk statement with hnow | hnow
  · rw [hnow]
    exact hlasting
  · rwa [hnow]

/-! ## Scripts -/

variable {script : List (Text × Database.Statement)}

/-- Statements are carried out in turn, up to one that fails. -/
theorem Shows.executeAll (h : Shows model sure store disk view)
    (script : List (Text × Database.Statement)) :
    (∃ after next left, view.after? script = some after ∧
        store.executeAll disk script = (.ok (), next, left) ∧ Shows model sure next left after) ∨
      ∃ action complaint reached next left, view.StopsAt sure script action reached ∧
        store.executeAll disk script = (.error (.database action complaint), next, left) ∧
          Shows model sure next left reached := by
  induction script generalizing store disk view with
  | nil => exact .inl ⟨view, store, disk, rfl, rfl, h⟩
  | cons step rest ih =>
    obtain ⟨action, statement⟩ := step
    rw [Store.executeAll]
    rcases h.execute action statement with
      ⟨after, next, left, heffect, hreply, hshows⟩ | ⟨complaint, next, left, hrefused, hreply, hshows⟩
    · rw [hreply]
      dsimp only
      rcases ih hshows with ⟨last, final, end_, hafter, hrest, hlast⟩ |
          ⟨action, complaint, reached, final, end_, hstops, hrest, hlast⟩
      · refine .inl ⟨last, final, end_, ?_, hrest, hlast⟩
        rw [View.after?, heffect, Option.bind_some, hafter]
      · exact .inr ⟨action, complaint, reached, final, end_, .later heffect hstops, hrest, hlast⟩
    · rw [hreply]
      exact .inr ⟨action, complaint, view, next, left, .here hrefused, rfl, hshows⟩

/-- A script leaves what was stored or stores rows that last on its way. -/
theorem Shows.leaves_executeAll {holds : View → Prop} (h : Shows model sure store disk view)
    (hscript : Keeps holds script) (hview : holds view)
    (hgood : ∀ {view : View}, holds view → good view.lasting) :
    Leaves model good store disk (store.executeAll disk script).2.1
      (store.executeAll disk script).2.2 := by
  induction script generalizing store disk view with
  | nil => exact .refl
  | cons step rest ih =>
    obtain ⟨hstep, hrest⟩ := List.forall_mem_cons.mp hscript
    obtain ⟨action, statement⟩ := step
    have hfirst := h.leaves_execute action (hgood hview) fun heffect => hgood (hstep hview heffect)
    rw [Store.executeAll]
    rcases h.execute action statement with
      ⟨after, next, left, heffect, hreply, hshows⟩ | ⟨_, next, left, _, hreply, hshows⟩
    · rw [hreply] at hfirst ⊢
      exact hfirst.trans (ih hshows hrest (hstep hview heffect))
    · rw [hreply] at hfirst ⊢
      exact hfirst

/-! ## Transactions -/

variable {rows : Tables}

/-- A transaction is carried out as a whole, or a statement of it fails and the rows are those before,
whatever statements had been carried out. -/
theorem Shows.transaction (h : Shows model True store disk ⟨rows, none⟩)
    (hscript : Keeps (fun view => view.before = some rows) script) :
    (∃ after next left, View.after? ⟨rows, some rows⟩ script = some after ∧
        store.transaction disk script = (.ok (), next, left) ∧
          Shows model True next left ⟨after.rows, none⟩) ∨
      ∃ action complaint reached next left, View.StopsAt True ⟨rows, some rows⟩ script action reached ∧
        store.transaction disk script = (.error (.database action complaint), next, left) ∧
          Shows model True next left ⟨rows, none⟩ := by
  rw [Store.transaction]
  rcases h.execute "starting transaction" .start with
    ⟨_, begun, disk₁, heffect, hstart, hbegun⟩ | ⟨_, _, _, hrefused, _, _⟩
  · cases heffect
    rw [hstart]
    dsimp only
    rcases hbegun.executeAll script with
      ⟨after, kept, disk₂, hafter, hdone, hkept⟩ |
      ⟨action, complaint, reached, kept, disk₂, hstops, hfails, hkept⟩
    · have hbefore := View.holds_of_after? hscript rfl hafter
      have hcommitted : Database.Statement.commit.effect? after = some ⟨after.rows, none⟩ := by
        rw [Database.Statement.effect?, hbefore]
        rfl
      rw [hdone]
      dsimp only
      rcases hkept.execute "committing" .commit with
        ⟨_, last, disk₃, heffect, hcommit, hlast⟩ | ⟨_, _, _, hrefused, _, _⟩
      · obtain rfl := Option.some.inj (hcommitted.symm.trans heffect)
        exact .inl ⟨after, last, disk₃, hafter, hcommit, hlast⟩
      · cases hcommitted.symm.trans (hrefused trivial)
    · have hbefore := View.holds_of_stopsAt hscript rfl hstops
      have hundone : Database.Statement.rollback.effect? reached = some ⟨rows, none⟩ := by
        rw [Database.Statement.effect?, hbefore]
        rfl
      rw [hfails]
      dsimp only
      rcases hkept.execute "rolling back" .rollback with
        ⟨_, last, disk₃, heffect, hrollback, hlast⟩ | ⟨_, _, _, hrefused, _, _⟩
      · obtain rfl := Option.some.inj (hundone.symm.trans heffect)
        rw [hrollback]
        exact .inr ⟨action, complaint, reached, last, disk₃, hstops, rfl, hlast⟩
      · cases hundone.symm.trans (hrefused trivial)
  · cases hrefused trivial

/-- A transaction leaves what was stored, or stores the rows before or after it. This also holds of a
database that fails on the way. -/
theorem Shows.leaves_transaction (h : Shows model sure store disk ⟨rows, none⟩)
    (hscript : Keeps (fun view => view.before = some rows) script) (hrows : good rows)
    (hgood : ∀ {after : View}, View.after? ⟨rows, some rows⟩ script = some after → good after.rows) :
    Leaves model good store disk (store.transaction disk script).2.1
      (store.transaction disk script).2.2 := by
  -- The rows that last are those at the start until the transaction ends.
  have hinside {view : View} (hview : view.before = some rows) : good view.lasting := by
    rwa [View.lasting, hview]
  have hstart := @Shows.leaves_execute _ _ _ _ _ _ good .start h "starting transaction" hrows
    fun heffect => by
      cases heffect
      exact hrows
  rw [Store.transaction]
  rcases h.execute "starting transaction" .start with
    ⟨_, begun, disk₁, heffect, hreply, hbegun⟩ | ⟨_, begun, disk₁, _, hreply, _⟩
  · cases heffect
    have hmiddle := hbegun.leaves_executeAll hscript rfl hinside
    rw [hreply] at hstart ⊢
    refine hstart.trans ?_
    dsimp only
    rcases hbegun.executeAll script with
      ⟨after, kept, disk₂, hafter, hdone, hkept⟩ | ⟨_, _, reached, kept, disk₂, hstops, hfails, hkept⟩
    · have hbefore := View.holds_of_after? hscript rfl hafter
      rw [hdone] at hmiddle ⊢
      refine hmiddle.trans (hkept.leaves_execute "committing" (hinside hbefore) fun heffect => ?_)
      rw [Database.Statement.effect?, hbefore] at heffect
      cases heffect
      exact @hgood after hafter
    · have hbefore := View.holds_of_stopsAt hscript rfl hstops
      rw [hfails] at hmiddle ⊢
      refine hmiddle.trans (hkept.leaves_execute "rolling back" (hinside hbefore) fun heffect => ?_)
      rw [Database.Statement.effect?, hbefore] at heffect
      cases heffect
      exact hrows
  · rw [hreply] at hstart ⊢
    exact hstart

end Statements

end Store

end Tapestry

import Mathlib.Data.List.Induction
import Tapestry.Session
import Tapestry.Proofs.ScopeContents

/-!
# Documents do not touch each other

What a session keeps about a document is told by the texts that the document was given since it was
closed last. The latest of them is the text of the document, and the latest that can be built gives
its build. Events of other documents give it no text, so a session without them answers alike.
-/

namespace Tapestry

namespace Event

/-- The document that an event is about. -/
def uri : Event → Text
  | opened uri _ | changed uri _ | closed uri => uri

/-- The text that an event gives its document. -/
def text? : Event → Option Text
  | opened _ text => some text
  | changed _ edits =>
    match edits.getLast? with
    | some (.whole text) => some text
    | _ => none
  | closed _ => none

/-- Whether an event closes its document. -/
def closes : Event → Bool
  | closed _ => true
  | _ => false

/-- The texts that a document was given since it was closed last, the latest first. -/
def given (uri : Text) (events : List Event) : List Text :=
  ((events.reverse.filter (·.uri == uri)).takeWhile (!·.closes)).filterMap text?

variable {uri : Text} {events : List Event} {event : Event}

/-- Events of other documents give no text. -/
theorem given_filter (uri : Text) (events : List Event) :
    given uri (events.filter (·.uri == uri)) = given uri events := by
  rw [given, given, ← List.filter_reverse, List.filter_filter]
  simp only [Bool.and_self]

/-- An event of another document gives no text. -/
theorem given_of_other (h : event.uri ≠ uri) : given uri (events ++ [event]) = given uri events := by
  have hother : (event.uri == uri) = false := by simpa using h
  rw [given, List.reverse_concat, List.filter_cons_of_neg (by simp [hother]), given]

/-- A document that was closed has been given no text since. -/
theorem given_of_closes (h : event.uri = uri) (hcloses : event.closes = true) :
    given uri (events ++ [event]) = [] := by
  rw [given, List.reverse_concat, List.filter_cons_of_pos (by simpa using h),
    List.takeWhile_cons_of_neg (by simp [hcloses]), List.filterMap_nil]

/-- Any other event gives its text, if it has one, as the latest. -/
theorem given_of_own (h : event.uri = uri) (hcloses : event.closes = false) :
    given uri (events ++ [event]) = event.text?.toList ++ given uri events := by
  rw [given, List.reverse_concat, List.filter_cons_of_pos (by simpa using h),
    List.takeWhile_cons_of_pos (by simp [hcloses]), List.filterMap_cons, given]
  cases event.text? <;> rfl

end Event

namespace Session

variable {session first second : Session} {disk : Disk} {uri other text : Text} {event : Event}

/-! ## Tables -/

section Tables

variable {α : Type} {table : List (Text × α)}

/-- A table without a locator has nothing at it. -/
theorem lookup_without_self (uri : Text) (table : List (Text × α)) :
    (without uri table).lookup uri = none := by
  rw [List.lookup_eq_none_iff]
  intro item hitem
  have hne : item.1 ≠ uri := by simpa using (List.mem_filter.mp hitem).2
  simpa using hne.symm

/-- A table without a locator has the same at the others. -/
theorem lookup_without_of_ne (h : other ≠ uri) : (without uri table).lookup other = table.lookup other :=
  lookup_filter_ne h

/-- What is put at a locator is found there. -/
theorem lookup_put_self (uri : Text) (a : α) (table : List (Text × α)) :
    ((uri, a) :: without uri table).lookup uri = some a := by
  rw [List.lookup_cons, beq_self_eq_true]

/-- What is put at a locator leaves what stands at the others. -/
theorem lookup_put_of_ne (h : other ≠ uri) (a : α) :
    ((uri, a) :: without uri table).lookup other = table.lookup other := by
  rw [List.lookup_cons, beq_false_of_ne h]
  exact lookup_without_of_ne h

end Tables

/-! ## One event -/

/-- What is kept about a document. -/
def kept (session : Session) (uri : Text) : Option Text × Option Build :=
  (session.texts.lookup uri, session.builds.lookup uri)

/-- Sessions that keep the same about a document have the same document. -/
theorem find?_congr (h : first.kept uri = second.kept uri) :
    first.find? uri = second.find? uri := by
  obtain ⟨htexts, hbuilds⟩ := Prod.mk.inj h
  rw [find?, find?, htexts, hbuilds]

/-- The answers that a session gives about a document, wherever the cursor stands. -/
def answers (session : Session) (uri : Text) (cursor : Cursor) :
    List Proposal × Option Text × Option Reference × List Reference :=
  (session.complete uri cursor, session.hover uri cursor, session.definition uri cursor,
    session.references uri cursor)

/-- Sessions with the same document give the same answers about it. -/
theorem answers_congr (h : first.find? uri = second.find? uri) (cursor : Cursor) :
    first.answers uri cursor = second.answers uri cursor := by
  have hword : first.wordAt? uri cursor = second.wordAt? uri cursor := by rw [wordAt?, wordAt?, h]
  simp only [answers, complete, hover, definition, references, h, hword]

variable [Manifest.Decoder]

/-- What a text of a document is built as. -/
def built? (disk : Disk) (uri text : Text) : Option Build := (build disk (Uri.path uri) text).toOption

/-- A new text takes the place of the old one, and its build that of the old one if there is one. -/
theorem kept_update (session : Session) (disk : Disk) (uri text : Text) :
    (session.update disk uri text).1.kept uri =
      (some text, (built? disk uri text).or (session.builds.lookup uri)) := by
  unfold update built?
  dsimp only
  cases build disk (Uri.path uri) text with
  | ok build => exact Prod.ext (lookup_put_self uri text _) (lookup_put_self uri build _)
  | error error => exact Prod.ext (lookup_put_self uri text _) rfl

/-- A new text of a document leaves other documents alone. -/
theorem kept_update_of_ne (h : other ≠ uri) :
    (session.update disk uri text).1.kept other = session.kept other := by
  unfold update
  dsimp only
  cases build disk (Uri.path uri) text with
  | ok build => exact Prod.ext (lookup_put_of_ne h text) (lookup_put_of_ne h build)
  | error error => exact Prod.ext (lookup_put_of_ne h text) rfl

/-- An event leaves other documents alone. -/
theorem kept_handle_of_ne (h : event.uri ≠ uri) :
    (session.handle disk event).1.kept uri = session.kept uri := by
  cases event with
  | opened name text => exact kept_update_of_ne (Ne.symm h)
  | changed name edits =>
    unfold handle
    dsimp only
    split
    case h_1 => exact kept_update_of_ne (Ne.symm h)
    case h_2 => rfl
  | closed name =>
    exact Prod.ext (lookup_without_of_ne (Ne.symm h)) (lookup_without_of_ne (Ne.symm h))

/-- An event that closes a document leaves nothing of it. -/
theorem kept_handle_of_closes (h : event.closes = true) :
    (session.handle disk event).1.kept event.uri = (none, none) := by
  cases event with
  | opened name text => cases h
  | changed name edits => cases h
  | closed name => exact Prod.ext (lookup_without_self name _) (lookup_without_self name _)

/-- Any other event of a document gives it a new text, or nothing changes. -/
theorem kept_handle_of_own (h : event.closes = false) :
    (session.handle disk event).1.kept event.uri =
      event.text?.elim (session.kept event.uri) fun text =>
        (some text, (built? disk event.uri text).or (session.builds.lookup event.uri)) := by
  cases event with
  | opened name text => exact kept_update session disk name text
  | changed name edits =>
    simp only [handle, Event.text?]
    cases edits.getLast? with
    | none => rfl
    | some edit =>
      cases edit with
      | whole text => exact kept_update session disk name text
      | part text => rfl
  | closed name => cases h

/-! ## All events -/

/-- The session after one more event. -/
theorem after_concat (disk : Disk) (events : List Event) (event : Event) :
    after disk (events ++ [event]) = ((after disk events).handle disk event).1 := by
  rw [after, List.foldl_append]
  rfl

/-- What is kept about a document is told by the texts it was given. -/
theorem kept_after (disk : Disk) (events : List Event) (uri : Text) :
    (after disk events).kept uri =
      ((Event.given uri events).head?, (Event.given uri events).findSome? (built? disk uri)) := by
  -- The latest event decides, so the induction takes events away at the end.
  induction events using List.reverseRecOn with
  | nil => rfl
  | append_singleton events event ih =>
    rw [after_concat]
    by_cases hown : event.uri = uri
    · subst hown
      by_cases hcloses : event.closes = true
      · rw [kept_handle_of_closes hcloses, Event.given_of_closes rfl hcloses]
        rfl
      · have hopen : event.closes = false := Bool.not_eq_true _ ▸ hcloses
        have hbuilds := (Prod.mk.inj ih).2
        rw [kept_handle_of_own hopen, Event.given_of_own rfl hopen]
        cases event.text? with
        | none => exact ih
        | some text =>
          rw [Option.elim_some, hbuilds, Option.toList_some, List.singleton_append, List.findSome?_cons]
          cases built? disk event.uri text <;> rfl
    · rw [kept_handle_of_ne hown, Event.given_of_other hown, ih]

/-- A document whose text can be built has that text and its build. -/
theorem find?_update {result : Build} (h : build disk (Uri.path uri) text = .ok result) :
    (session.update disk uri text).1.find? uri = some ⟨text, some result⟩ := by
  have hkept := kept_update session disk uri text
  rw [built?, h] at hkept
  obtain ⟨htext, hbuild⟩ := Prod.mk.inj hkept
  rw [find?, htext, hbuild]
  rfl

/-- Whatever an editor reports about any documents, the text kept for a document is the latest it was
given since it was closed last, the build kept for it is that of the latest such text that can be
built, a build is kept only beside a text, and every answer about it is that of a session that was
told of no other document. -/
theorem documents_independent (disk : Disk) (events : List Event) (uri : Text) :
    (after disk events).texts.lookup uri = (Event.given uri events).head? ∧
      (after disk events).builds.lookup uri =
          (Event.given uri events).findSome? (fun text => (build disk (Uri.path uri) text).toOption) ∧
        (((after disk events).builds.lookup uri).isSome → ((after disk events).texts.lookup uri).isSome) ∧
          ∀ cursor, (after disk events).answers uri cursor =
            (after disk (events.filter (·.uri == uri))).answers uri cursor := by
  have hkept := kept_after disk events uri
  obtain ⟨htexts, hbuilds⟩ := Prod.mk.inj hkept
  refine ⟨htexts, hbuilds, fun hbuilt => ?_, fun cursor => ?_⟩
  · rw [hbuilds, List.findSome?_isSome_iff] at hbuilt
    obtain ⟨text, htext, _⟩ := hbuilt
    rw [htexts, List.isSome_head?]
    exact List.ne_nil_of_mem htext
  · apply answers_congr
    apply find?_congr
    rw [hkept, kept_after, Event.given_filter]

end Session

end Tapestry

import Tapestry.File.Uri
import Tapestry.Manifest
import Tapestry.Session.Cursor
import Tapestry.Session.Diagnostic

/-!
# Editor sessions

An editor opens documents, changes them and asks about words in them. Every new text of a document
is built. If the build fails the answers still come from the last text that could be built, so that
they do not vanish while the user types.
-/

namespace Tapestry

/-- A document that is open. -/
structure Document where
  /-- The text as the editor shows it. -/
  text : Text
  /-- The last build that succeeded. -/
  build : Option Build

/-- What is kept about documents, by locator. -/
structure Session where
  /-- The texts as the editor shows them. -/
  texts : List (Text × Text)
  /-- The last builds that succeeded. -/
  builds : List (Text × Build)

/-- A change of a document. -/
inductive Edit where
  /-- The text becomes another one. -/
  | whole (text : Text)
  /-- A part of the text becomes another one. -/
  | part (text : Text)
  deriving DecidableEq, Repr

/-- What an editor reports. -/
inductive Event where
  | opened (uri text : Text)
  | changed (uri : Text) (edits : List Edit)
  | closed (uri : Text)
  deriving DecidableEq, Repr

/-- Where a word stands: a document and a stretch of it. -/
structure Reference where
  uri : Text
  span : Span
  deriving DecidableEq, Repr

/-- How an editor is to report changes of a document. -/
inductive Synchronization where
  | never
  | whole
  | parts
  deriving DecidableEq, Repr

/-- The number that editors know a way of reporting changes by. -/
def Synchronization.code : Synchronization → Nat
  | never => 0
  | whole => 1
  | parts => 2

/-- What a server can be asked for. -/
structure Capabilities where
  /-- Whether it wants to know when documents are opened and closed. -/
  tracksOpening : Bool
  changes : Synchronization
  completion : Bool
  hover : Bool
  definition : Bool
  references : Bool
  deriving DecidableEq, Repr

/-- The answer to an editor that connects. -/
structure Greeting where
  capabilities : Capabilities
  /-- What the server calls itself. -/
  name : Text
  version : Text
  deriving DecidableEq, Repr

/-- What sort of symbol a proposal is. -/
inductive ProposalSort where
  | keyword
  | function
  | binding
  deriving DecidableEq, Repr

/-- A symbol that would complete a word. -/
structure Proposal where
  label : Text
  sort : ProposalSort
  detail : Text
  deriving DecidableEq, Repr

/-- The number that editors know a sort by. -/
def ProposalSort.code : ProposalSort → Nat
  | function => 3
  | binding => 6
  | keyword => 14

namespace Proposal

/-- The proposal of a symbol. -/
def ofSymbol : Symbol → Proposal
  | .func f => ⟨f.name, if f.isBuiltin then .keyword else .function, f.signature⟩
  | .var v => ⟨v.name, .binding, v.render⟩

/-- Most proposals that are made at once. -/
def limit : Nat := 100

/-- The first symbols of a scope whose names begin with a text, in order of names. -/
def select (scope : Scope) (beginning : Text) : List Proposal :=
  let found := (scope.symbols.map ofSymbol).filter fun proposal => beginning.isPrefixOf proposal.label
  (found.mergeSort fun a b => Text.atMost a.label b.label).take limit

end Proposal

namespace Document

/-- The root scope of the last build, if there was one. -/
def scope? (document : Document) : Option Scope := document.build.map Build.scope

/-- What is shown about a symbol. -/
def describe : Symbol → Text
  | .func f =>
    let origin : Text :=
      match f.source with
      | none => []
      | some token =>
        Text.ofString ", defined at " ++ Path.base f.file ++ ":" ++ Number.int token.line
    Text.ofString "```\n" ++ f.signature ++ "\n```\n\n" ++ f.lifetime.name ++ origin
  | .var v => Text.ofString "```\n" ++ v.render ++ "\n```"

/-- Where a symbol of the document at a path was defined; built-in functions were not. -/
def origin? (path : Text) : Symbol → Option Reference
  | .func f => f.source.map fun token => ⟨Uri.ofPath f.file, token.span⟩
  | .var v => some ⟨Uri.ofPath path, v.value.token.span⟩

/-- The symbol of a word in the root scope. -/
def symbol? (document : Document) (word : Text) : Option Symbol := do (← document.scope?).find? word

/-- Proposals for a word that begins with a text. A document that was never built has the built-in
functions. -/
def complete (document : Document) (beginning : Text) : List Proposal :=
  Proposal.select (document.scope?.getD .initial) beginning

/-- What is shown about a word. -/
def hover (document : Document) (word : Text) : Option Text := (document.symbol? word).map describe

/-- Where a word of the document at a path was defined. -/
def definition (document : Document) (path word : Text) : Option Reference := do
  origin? path (← document.symbol? word)

/-- Whether a visit called the function that the root scope holds under a name. -/
def calls (name : Text) (visit : Visit) : Bool :=
  visit.home = 0 && visit.function.any (·.name == name)

/-- The word that heads the expression of a visit. In one parse a word is told by its place; words of
different parses are different. -/
def headWord (visit : Visit) : Nat × Token := (visit.parse, visit.node.callee)

/-- Visits but for those whose expression is headed by a word seen before. -/
def firstVisits (seen : List (Nat × Token)) : List Visit → List Visit
  | [] => []
  | visit :: rest =>
    if headWord visit ∈ seen then firstVisits seen rest
    else visit :: firstVisits (headWord visit :: seen) rest

/-- Where the function of a word is called: each calling word once, in the order of first visits. -/
def references (document : Document) (word : Text) : List Reference :=
  let visits := document.build.elim [] Build.visits
  (firstVisits [] (visits.filter (calls word))).map fun visit =>
    ⟨Uri.ofPath visit.file, visit.node.callee.span⟩

end Document

namespace Session

/-- The answer to an editor that connects: it is to send whole texts, and may ask for everything. -/
def greeting : Greeting :=
  { capabilities :=
      { tracksOpening := true, changes := .whole, completion := true, hover := true
        definition := true, references := true }
    name := Diagnostic.source
    version := "0.1.0" }

/-- A session without documents. -/
def empty : Session := ⟨[], []⟩

/-- The document at a locator. -/
def find? (session : Session) (uri : Text) : Option Document := do
  let text ← session.texts.lookup uri
  some ⟨text, session.builds.lookup uri⟩

/-- The entries of a table but for the one at a locator. -/
def without {α : Type} (uri : Text) (table : List (Text × α)) : List (Text × α) :=
  table.filter (·.1 != uri)

/-- Put a text at a locator. -/
def putText (session : Session) (uri text : Text) : Session :=
  { session with texts := (uri, text) :: without uri session.texts }

/-- Put a build at a locator. -/
def putBuild (session : Session) (uri : Text) (build : Build) : Session :=
  { session with builds := (uri, build) :: without uri session.builds }

/-- Forget what is kept at a locator. -/
def erase (session : Session) (uri : Text) : Session :=
  ⟨without uri session.texts, without uri session.builds⟩

variable [Manifest.Decoder]

/-- How the document at a path is built: as its project says, if it belongs to one. -/
def buildOptions (disk : Disk) (path : Text) : BuildOptions :=
  if Path.isAbsolute path then
    match Manifest.find disk (Path.directory path) with
    | .ok (some manifest) => manifest.buildOptions
    | _ => {}
  else {}

/-- Build a text as the document at a path. -/
def build (disk : Disk) (path text : Text) : Except Error Build :=
  (disk.setup (buildOptions disk path)).build path text

/-- Take up a new text of a document, and tell what is wrong with it. -/
def update (session : Session) (disk : Disk) (uri text : Text) : Session × List Diagnostic :=
  let path := Uri.path uri
  match build disk path text with
  | .ok build => ((session.putText uri text).putBuild uri build, [])
  | .error error => (session.putText uri text, [.ofError path error])

/-- Take up an event. Diagnostics are published unless the text stays as it is. Only the last edit
counts, and only if it gives the whole text. -/
def handle (session : Session) (disk : Disk) : Event → Session × Option (List Diagnostic)
  | .opened uri text => (session.update disk uri text).map id some
  | .changed uri edits =>
    match edits.getLast? with
    | some (.whole text) => (session.update disk uri text).map id some
    | _ => (session, none)
  | .closed uri => (session.erase uri, some [])

/-- The session after events, with a disk that does not change. -/
def after (disk : Disk) (events : List Event) : Session :=
  events.foldl (fun session event => (session.handle disk event).1) empty

/-- A document and the word at a cursor in it, unless there is none. -/
def wordAt? (session : Session) (uri : Text) (cursor : Cursor) : Option (Document × Text) := do
  let document ← session.find? uri
  let word := cursor.wordAt document.text
  if word.isEmpty then none else some (document, word)

/-- Proposals for the word before a cursor. -/
def complete (session : Session) (uri : Text) (cursor : Cursor) : List Proposal :=
  match session.find? uri with
  | none => []
  | some document =>
    let beginning := cursor.wordBefore document.text
    if beginning.isEmpty then [] else document.complete beginning

/-- What is shown about the word at a cursor. -/
def hover (session : Session) (uri : Text) (cursor : Cursor) : Option Text := do
  let (document, word) ← session.wordAt? uri cursor
  document.hover word

/-- Where the word at a cursor was defined. -/
def definition (session : Session) (uri : Text) (cursor : Cursor) : Option Reference := do
  let (document, word) ← session.wordAt? uri cursor
  document.definition (Uri.path uri) word

/-- Where the function that the word at a cursor names is called. -/
def references (session : Session) (uri : Text) (cursor : Cursor) : List Reference :=
  match session.wordAt? uri cursor with
  | none => []
  | some (document, word) => document.references word

end Session

end Tapestry

import Tapestry.Toml.Document

/-!
# What a document defines

The lines of a document define a tree of tables. A table may be opened once. Tables on the way
to another are implied and may be opened later; a dotted key implies the tables on its way anew,
and a table is no longer implied once it has been met again. The keys that lines give are kept
in order.
-/

namespace Tapestry.Toml

/-- What a key leads to. -/
inductive Tree where
  | leaf (value : Value)
  | table (entries : List (Text × Tree))
  /-- A list of tables; lines extend its last element. -/
  | tables (elements : List (List (Text × Tree)))

/-- The keys of a table and what they lead to. -/
abbrev Entries := List (Text × Tree)

namespace Entries

/-- Put a tree under a key, in place of what was there. -/
def put (entries : Entries) (key : Text) (tree : Tree) : Entries :=
  if (entries.lookup key).isSome then
    entries.map fun (k, old) => if k = key then (k, tree) else (k, old)
  else entries ++ [(key, tree)]

/-- The table that a context leads to, through the last elements of lists. -/
def descend? : Key → Entries → Option Entries
  | [], entries => some entries
  | key :: rest, entries =>
    match entries.lookup key with
    | some (.table sub) => descend? rest sub
    | some (.tables elements) => elements.getLast?.bind (descend? rest)
    | _ => none

/-- Change the table that a context leads to. -/
def change? (change : Entries → Entries) : Key → Entries → Option Entries
  | [], entries => some (change entries)
  | key :: rest, entries =>
    match entries.lookup key with
    | some (.table sub) => (change? change rest sub).map fun sub => entries.put key (.table sub)
    | some (.tables elements) => do
      let last ← change? change rest (← elements.getLast?)
      return entries.put key (.tables (elements.dropLast ++ [last]))
    | _ => none

end Entries

/-- The tables defined so far. -/
structure Definitions where
  root : Entries := []
  /-- Tables that may still be opened. -/
  implied : List Key := []
  /-- Keys whose value is a list. -/
  lists : List Key := []
  /-- The keys that lines gave, in order. -/
  order : List Key := []

namespace Definitions

/-- Note that a table is implied. -/
def imply (defs : Definitions) (key : Key) : Definitions :=
  { defs with implied := key :: defs.implied }

/-- Note that a table is no longer implied. -/
def confirm (defs : Definitions) (key : Key) : Definitions :=
  { defs with implied := defs.implied.filter (· != key) }

/-- Note whether the value of a key is a list. -/
def noteList (defs : Definitions) (key : Key) (isList : Bool) : Definitions :=
  let others := defs.lists.filter (· != key)
  { defs with lists := if isList then key :: others else others }

/-- Note that a line gave a key. -/
def give (defs : Definitions) (key : Key) : Definitions := { defs with order := defs.order ++ [key] }

/-- Put a tree under a key of the table a context leads to. -/
def put? (defs : Definitions) (context : Key) (key : Text) (tree : Tree) : Option Definitions := do
  let root ← Entries.change? (·.put key tree) context defs.root
  return { defs with root }

/-- Define a key of the table a context leads to. What is there already is kept if it was
implied, or replaced if the key stands for a list. -/
def define? (defs : Definitions) (context : Key) (key : Text) (tree : Tree) : Option Definitions := do
  let path := context ++ [key]
  let entries ← Entries.descend? context defs.root
  match entries.lookup key with
  | none => defs.put? context key tree
  | some _ =>
    if !defs.implied.contains path then none
    else if defs.lists.contains path then (defs.confirm path).put? context key tree
    else return defs.confirm path

/-- Imply a table under a key unless one is there. -/
def pass? (defs : Definitions) (context : Key) (key : Text) : Option Definitions := do
  let entries ← Entries.descend? context defs.root
  match entries.lookup key with
  | none => (defs.imply (context ++ [key])).put? context key (.table [])
  | some (.leaf _) => none
  | some _ => return defs

/-- Pass through the tables on the way to a key, starting from a context. -/
def passAll? (defs : Definitions) (context : Key) : Key → Option Definitions
  | [] => some defs
  | key :: rest => do
    let defs ← defs.pass? context key
    defs.passAll? (context ++ [key]) rest

/-- Open a table, or another element of a list of tables. -/
def open? (defs : Definitions) (path : Key) (asElement : Bool) : Option Definitions := do
  let context := path.dropLast
  let key ← path.getLast?
  let defs ← defs.passAll? [] context
  if !asElement then defs.define? context key (.table [])
  else
    let entries ← Entries.descend? context defs.root
    match entries.lookup key with
    | none => defs.put? context key (.tables [[]])
    | some (.tables elements) => defs.put? context key (.tables (elements ++ [[]]))
    | some _ => none

/-- Open each table on the way of a dotted key, as implied by it. -/
def openDotted? (defs : Definitions) (context : Key) : Key → Option Definitions
  | [] => some defs
  | key :: rest => do
    let path := context ++ [key]
    let defs ← (defs.imply path).open? path false
    defs.openDotted? path rest

mutual

/-- Take account of the tables inside the value of a key. -/
def settle? (defs : Definitions) (context : Key) (key : Text) (inList : Bool) :
    Value → Option Definitions
  | .array items => (defs.noteList (context ++ [key]) true).settleItems? context key items
  | .inline entries => do
    let path := context ++ [key]
    let defs ← (defs.imply path).open? path inList
    defs.settleEntries? path entries
  | _ => some defs

/-- Take account of the tables inside the items of a list. -/
def settleItems? (defs : Definitions) (context : Key) (key : Text) :
    List Value → Option Definitions
  | [] => some defs
  | item :: rest => do
    let defs ← defs.settle? context key true item
    defs.settleItems? context key rest

/-- Define the entries of a table written in braces. -/
def settleEntries? (defs : Definitions) (context : Key) :
    List (Key × Value) → Option Definitions
  | [] => some defs
  | (key, value) :: rest => do
    let defs ← defs.openDotted? context key.dropLast
    let inner := context ++ key.dropLast
    let last ← key.getLast?
    let defs ← (defs.give (inner ++ [last])).settle? inner last false value
    let defs ← defs.define? inner last (.leaf value)
    let isList := match value with | .array _ => true | _ => false
    (defs.noteList (inner ++ [last]) isList).settleEntries? context rest

end

/-- Take account of one line in a context. The context may change. -/
def line? (defs : Definitions) (context : Key) : Line → Option (Definitions × Key)
  | .table key => do
    let defs ← defs.open? key false
    return ((defs.noteList key false).give key, key)
  | .element key => do
    let defs ← defs.open? key true
    return ((defs.noteList key false).give key, key)
  | .entry key value => do
    let defs ← defs.settleEntries? context [(key, value)]
    return (defs, context)

/-- Take account of lines in turn. -/
def ofLinesFrom? (defs : Definitions) (context : Key) : List Line → Option Definitions
  | [] => some defs
  | line :: rest => do
    let (defs, context) ← defs.line? context line
    defs.ofLinesFrom? context rest

/-- What a document defines, if its lines agree with each other. -/
def ofLines? (lines : List Line) : Option Definitions := ofLinesFrom? {} [] lines

/-- What a text defines. -/
def read? (t : Text) : Option Definitions := (Toml.read? t).bind ofLines?

end Definitions

/-- One part of a key; in quotes unless it is bare. -/
def renderPart (part : Text) : Text :=
  let escape (b : UInt8) : Text :=
    if b == 34 then "\\\"" else if b == 92 then "\\\\" else if b == 8 then "\\b" else if b == 9 then "\\t"
    else if b == 10 then "\\n" else if b == 12 then "\\f" else if b == 13 then "\\r"
    else if b < 32 || b == 127 then Text.ofString "\\u" ++ Number.hex 4 b.toNat
    else [b]
  if !part.isEmpty && part.all isBare then part else Text.ofString "\"" ++ part.flatMap escape ++ "\""

/-- A key as it is written. -/
def Key.render (key : Key) : Text := Text.join "." (key.map renderPart)

end Tapestry.Toml

import Tapestry.Fault
import Tapestry.Text.Lines

/-!
# Lines to statements

A line is cut into words at spaces and tabs. A word that starts with `#` begins a comment
that runs to the end of the line, and a line without words is no statement. The number of
leading spaces gives the nesting level, four spaces each.
-/

namespace Tapestry.Source

/-- Spaces per nesting level. -/
def indentWidth : Nat := 4

/-- White space that may end a line without meaning anything. -/
def isTrailing (b : UInt8) : Bool := b == 32 || b == 9 || b == 13

/-- The maximal runs of bytes that are not blank, each with the column it starts at. -/
def words (line : Text) : List (Nat × Text) :=
  (line.zipIdx.splitOnP fun (byte, _) => Byte.isBlank byte).filterMap fun run =>
    run.head?.map fun (_, column) => (column, run.map Prod.fst)

/-- A word that begins a comment. -/
def isComment (word : Text) : Bool := word.head? == some 35

/-- The words of a line before its comment, as tokens. -/
def tokens (number : Int) (line : Text) : List Token :=
  ((words line).takeWhile fun (_, word) => !isComment word).map fun (column, word) =>
    { line := number, column := column, text := word }

/-- The number of spaces a line starts with. -/
def leadingSpaces (line : Text) : Nat := (line.takeWhile (· == 32)).length

/-- Leading spaces that make up whole levels, with no tab directly behind them. -/
def wellIndented (line : Text) : Bool :=
  leadingSpaces line % indentWidth == 0 && (line.drop (leadingSpaces line)).head? != some 9

/-- Complaint about the indentation of a statement. -/
def badIndentation (statement : Statement) : Fault :=
  { kind := .level
    detail := "found " ++ Number.nat (leadingSpaces statement.source) ++ " leading spaces"
    token := some statement.head
    line := some statement
    causes := [] }

/-- Read one line. A line without words gives no statement. -/
def readLine (number : Int) (text : Text) : Except Fault (Option Statement) :=
  let line := Text.dropRight isTrailing text
  match tokens number line with
  | [] => .ok none
  | head :: args =>
    let statement : Statement :=
      { line := number, depth := (leadingSpaces line / indentWidth : Nat), head, args, source := line }
    if wellIndented line then .ok (some statement) else .error (badIndentation statement)

/-- Statements read, and what stopped reading before the end of the text. -/
structure Lexed where
  statements : List Statement
  stop : Option Failure

/-- Read each line of a text up to the first that cannot be read. Lines count from 1, whether
or not they hold a statement. -/
def lex (text : Text) : Lexed :=
  let reading := Lines.read text
  let results := (reading.lines.zipIdx 1).map fun (line, number) => readLine (number : Nat) line
  { statements := (results.takeWhile Except.isOk).filterMap fun
      | .ok statement => statement
      | .error _ => none
    stop :=
      match results.findSome? fun | .ok _ => none | .error fault => some fault with
      | some fault => some (.fault fault)
      | none => if reading.overlong then some (.trouble .lineTooLong) else none }

/-- All statements of a text, or what stopped reading. -/
def statements (text : Text) : Except Failure (List Statement) :=
  match (lex text).stop with
  | none => .ok (lex text).statements
  | some failure => .error failure

end Tapestry.Source

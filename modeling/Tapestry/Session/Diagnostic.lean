import Tapestry.Expansion.Visit

/-!
# Diagnostics

An error is shown to an editor as a message at a stretch of the document. An error that arose in
another unit is shown at the statement of the document that led to it.
-/

namespace Tapestry

/-- A stretch of a line, with lines and bytes counted from 0. -/
structure Span where
  line : Nat
  first : Nat
  /-- The byte behind the last one. -/
  past : Nat
  deriving DecidableEq, Repr

/-- The stretch of a word. -/
def Token.span (token : Token) : Span :=
  { line := (token.line - 1).toNat
    first := token.column.toNat
    past := (token.column + token.width).toNat }

/-- A message at a stretch of a document. -/
structure Diagnostic where
  span : Span
  message : Text
  deriving DecidableEq, Repr

namespace Diagnostic

/-- What the source of every diagnostic is called: the name of the server. -/
def source : Text := "brain-lsp"

/-- The number that editors know the severity of every diagnostic by: each is about an error. -/
def severity : Nat := 1

/-- The stretch shown if nothing in the document is to blame. -/
def nowhere : Span := ⟨0, 0, 0⟩

/-- The word to show a fault at: the innermost statement of the document around it if the fault
arose in another unit, else the word that it blames, else the first word of its line. -/
def blamed (name : Text) (fault : Fault) (trail : List Visit) : Option Token :=
  let own := fault.token.or (fault.line.map Statement.head)
  match trail with
  | [] => own
  | innermost :: around =>
    if innermost.file == name then own
    else (around.find? (·.file == name)).elim own fun visit => some visit.node.callee

/-- The trace of a fault, if it tells more than the fault itself. -/
def traceBelow (trace : List Text) : Text :=
  if 1 < trace.length then Text.ofString "\n" ++ Text.join "\n" trace else []

/-- The diagnostic of an error in the document of a name. -/
def ofError (name : Text) (error : Error) : Diagnostic :=
  match error.failure with
  | .trouble trouble => ⟨nowhere, trouble.message⟩
  | .fault fault =>
    { span := (blamed name fault error.trail).elim nowhere Token.span
      message := Fault.statement fault.kind fault.detail ++ traceBelow error.trace }

end Diagnostic

end Tapestry

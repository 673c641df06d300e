import Tapestry.Text.Number

/-!
# Tokens and statements

A source line is a statement: the word that names the function to call, then the argument
words. Every word remembers where it stood, so that a complaint can point at it.
-/

namespace Tapestry

/-- One blank-separated word of a source line. -/
structure Token where
  /-- Source line, counted from 1; no line of a source has number 0. -/
  line : Int
  /-- Byte column within the line, counted from 0. -/
  column : Int
  /-- The word itself. -/
  text : Text
  deriving DecidableEq, Repr

namespace Token

/-- Position and word, for tests and traces. -/
def describe (token : Token) : Text :=
  Number.int token.line ++ ":" ++ Number.int token.column ++ "<" ++ token.text ++ ">"

/-- Description of a token that may be missing. -/
def describe? (token : Option Token) : Text := token.elim "<nil>" describe

/-- Width in source columns. -/
def width (token : Token) : Nat := token.text.length

/-- Line and column, both counted from 1. -/
def position (token : Token) : Int × Int := (token.line, Number.wrap (token.column + 1))

end Token

/-- A line of words: the function word, then the argument words. -/
structure Statement where
  /-- Source line, counted from 1. -/
  line : Int
  /-- Nesting level; the root of a unit stands at level -1. -/
  depth : Int
  /-- The word that names the function. -/
  head : Token
  /-- The argument words. -/
  args : List Token
  /-- The line as written, without trailing white space. -/
  source : Text
  deriving DecidableEq, Repr

namespace Statement

/-- All words in order. -/
def tokens (statement : Statement) : List Token := statement.head :: statement.args

/-- The words with single spaces between them. -/
def render (statement : Statement) : Text := Text.join " " (statement.tokens.map Token.text)

/-- The head of a whole unit, one level above its top-level statements. -/
def root : Statement :=
  { line := 0, depth := -1, head := ⟨0, 0, "__main"⟩, args := [], source := [] }

end Statement

end Tapestry

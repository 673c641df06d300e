import Tapestry.Source.Node

/-!
# What can go wrong

A fault of the language has a kind, a wording of its own, and the word or line to blame. It
may have causes, which are faults again or trouble outside the language: a line that cannot
be read, a unit that cannot be found, a file that cannot be opened.

Kinds come in families, so an expectation can name either a kind or its family.
-/

namespace Tapestry

/-- The kinds of language fault, in the order of their names. -/
inductive FaultKind where
  | address
  | argument
  | argumentLen
  | argumentParse
  | argumentType
  | blockFunction
  | blockLevel
  | codeInception
  | codeInceptionArguments
  | codeInceptionBlock
  | codeInceptionNotFound
  | duplicateSymbol
  | functionLifeTime
  | functionNotFound
  | identifierName
  | importFailed
  | importCycle
  | intParse
  | level
  | noBlockFunction
  | recursionLimit
  | strParse
  | structuralNesting
  | symbolNotFound
  | typeName
  | typeParse
  | variableNotFound
  deriving DecidableEq, Repr

namespace FaultKind

/-- Every kind, in the order of their names. -/
def all : List FaultKind :=
  [address, argument, argumentLen, argumentParse, argumentType, blockFunction, blockLevel,
    codeInception, codeInceptionArguments, codeInceptionBlock, codeInceptionNotFound,
    duplicateSymbol, functionLifeTime, functionNotFound, identifierName, importFailed,
    importCycle, intParse, level, noBlockFunction, recursionLimit, strParse, structuralNesting,
    symbolNotFound, typeName, typeParse, variableNotFound]

/-- The name an expectation uses for the kind. -/
def name : FaultKind → Text
  | address => "Address"
  | argument => "Argument"
  | argumentLen => "ArgumentLen"
  | argumentParse => "ArgumentParse"
  | argumentType => "ArgumentType"
  | blockFunction => "BlockFunction"
  | blockLevel => "BlockLevel"
  | codeInception => "CodeInception"
  | codeInceptionArguments => "CodeInceptionArguments"
  | codeInceptionBlock => "CodeInceptionBlock"
  | codeInceptionNotFound => "CodeInceptionNotFound"
  | duplicateSymbol => "DuplicateSymbol"
  | functionLifeTime => "FunctionLifeTime"
  | functionNotFound => "FunctionNotFound"
  | identifierName => "IdentifierName"
  | importFailed => "Import"
  | importCycle => "ImportCycle"
  | intParse => "IntParse"
  | level => "Level"
  | noBlockFunction => "NoBlockFunction"
  | recursionLimit => "RecursionLimit"
  | strParse => "StrParse"
  | structuralNesting => "StructuralNesting"
  | symbolNotFound => "SymbolNotFound"
  | typeName => "TypeName"
  | typeParse => "TypeParse"
  | variableNotFound => "VariableNotFound"

/-- The kind with a given name. -/
def ofName? (name : Text) : Option FaultKind := all.find? (·.name == name)

/-- The family a kind belongs to; a family and a kind without one stand for themselves. -/
def family : FaultKind → FaultKind
  | level | blockLevel => structuralNesting
  | functionNotFound | variableNotFound => symbolNotFound
  | argumentLen | argumentType | argumentParse => argument
  | intParse | identifierName | address | strParse | typeName | functionLifeTime => typeParse
  | codeInceptionArguments | codeInceptionBlock | codeInceptionNotFound => codeInception
  | kind => kind

/-- A kind is matched by its own name and by its family's. -/
def isA (kind expected : FaultKind) : Bool := kind == expected || kind.family == expected

/-- What the kind says by itself. -/
def wording : FaultKind → Text
  | structuralNesting => "structural nesting error"
  | symbolNotFound => "symbol not found"
  | argument => "argument error"
  | typeParse => "type parse error"
  | codeInception => "code inception error"
  | level => "structural nesting error: indentation must be a multiple of 4 spaces"
  | blockLevel => "structural nesting error: nesting level increased by more than one"
  | functionNotFound => "symbol not found: function"
  | variableNotFound => "symbol not found: variable"
  | duplicateSymbol => "duplicate symbol"
  | argumentLen => "argument error: wrong number of arguments"
  | argumentType => "argument error: type mismatch"
  | argumentParse => "argument error: cannot bind argument"
  | intParse => "type parse error: int"
  | identifierName => "type parse error: identifier"
  | address => "type parse error: address"
  | strParse => "type parse error: str"
  | typeName => "type parse error: type name"
  | functionLifeTime => "type parse error: lifetime"
  | codeInceptionArguments => "code inception error: `code` takes no arguments"
  | codeInceptionBlock => "code inception error: `code` cannot own a block"
  | codeInceptionNotFound => "code inception error: no caller block registered"
  | blockFunction => "block function called without a block"
  | noBlockFunction => "block passed to a function that takes none"
  | recursionLimit => "maximum expansion depth exceeded"
  | importCycle => "import cycle"
  | importFailed => "import failed"

end FaultKind

/-- Why the file system refused a request. -/
inductive FileProblem where
  | missing
  | isDirectory
  | notDirectory
  | invalidArgument
  deriving DecidableEq, Repr

/-- What a file problem says. -/
def FileProblem.wording : FileProblem → Text
  | missing => "no such file or directory"
  | isDirectory => "is a directory"
  | notDirectory => "not a directory"
  | invalidArgument => "invalid argument"

/-- A refused request: what was tried, on which path, and why it failed. -/
structure FileFault where
  action : Text
  path : Text
  problem : FileProblem
  deriving DecidableEq, Repr

/-- Request, path and problem on one line. -/
def FileFault.message (fault : FileFault) : Text :=
  fault.action ++ " " ++ fault.path ++ ": " ++ fault.problem.wording

/-- Trouble outside the language. -/
inductive Trouble where
  /-- A line fills the line buffer before its end. -/
  | lineTooLong
  /-- No source unit answers to this name. -/
  | unitNotFound (target : Text)
  /-- The file system refused a request. -/
  | file (fault : FileFault)
  /-- Anything else, in its own words. -/
  | other (message : Text)
  deriving DecidableEq, Repr

/-- What the trouble says. -/
def Trouble.message : Trouble → Text
  | lineTooLong => "bufio.Scanner: token too long"
  | unitNotFound target => "source unit not found: " ++ target
  | file fault => fault.message
  | other message => message

mutual

/-- A failure: a fault of the language, or trouble outside it. -/
inductive Failure where
  | fault (fault : Fault)
  | trouble (trouble : Trouble)

/-- A fault of the language. -/
structure Fault where
  /-- What kind of fault it is. -/
  kind : FaultKind
  /-- What is wrong in this case. -/
  detail : Text
  /-- The word to blame. -/
  token : Option Token
  /-- The line to show, when it is not the line of the failing call. -/
  line : Option Statement
  /-- What led to the fault. -/
  causes : List Failure

end

namespace Fault

/-- A fault that blames a word. -/
def blame (kind : FaultKind) (token : Token) (detail : Text) : Fault :=
  { kind, detail, token := some token, line := none, causes := [] }

/-- The position of the blamed word, when it comes from a source line. -/
def locus (token : Option Token) : Text :=
  match token with
  | none => []
  | some token =>
    if 0 < token.line then
      Number.int token.position.1 ++ ":" ++ Number.int token.position.2 ++ ": "
    else []

/-- Messages of causes in brackets, on one line; nothing when there are none. -/
def bracket (messages : List Text) : Text :=
  match messages with
  | [] => []
  | _ :: _ => Text.ofString " (" ++ Text.replaceByte 10 "; " (Text.join "\n" messages) ++ ")"

/-- A wording with the detail of the case after it. -/
def statement (kind : FaultKind) (detail : Text) : Text :=
  if detail.isEmpty then kind.wording else kind.wording ++ ": " ++ detail

end Fault

mutual

/-- The fault on one line, its causes in brackets. -/
def Fault.message : Fault → Text
  | ⟨kind, detail, token, _, causes⟩ =>
    Fault.locus token ++ Fault.statement kind detail ++ Fault.bracket (Failure.messages causes)

/-- The failure on one line. -/
def Failure.message : Failure → Text
  | .fault fault => fault.message
  | .trouble trouble => trouble.message

/-- The message of each failure. -/
def Failure.messages : List Failure → List Text
  | [] => []
  | failure :: rest => failure.message :: Failure.messages rest

end

mutual

/-- Whether a fault or one of its causes is of a kind or family. -/
def Fault.isA : Fault → FaultKind → Bool
  | ⟨kind, _, _, _, causes⟩, expected => kind.isA expected || Failure.anyIsA causes expected

/-- Whether a failure or one of its causes is of a kind or family. -/
def Failure.isA : Failure → FaultKind → Bool
  | .fault fault, expected => fault.isA expected
  | .trouble _, _ => false

/-- Whether some failure of a list is of a kind or family. -/
def Failure.anyIsA : List Failure → FaultKind → Bool
  | [], _ => false
  | failure :: rest, expected => failure.isA expected || Failure.anyIsA rest expected

end

mutual

/-- The troubles outside the language among the causes of a fault. -/
def Fault.troubles : Fault → List Trouble
  | ⟨_, _, _, _, causes⟩ => Failure.allTroubles causes

/-- The troubles outside the language in a failure. -/
def Failure.troubles : Failure → List Trouble
  | .fault fault => fault.troubles
  | .trouble trouble => [trouble]

/-- The troubles of each failure in order. -/
def Failure.allTroubles : List Failure → List Trouble
  | [] => []
  | failure :: rest => failure.troubles ++ Failure.allTroubles rest

end

end Tapestry

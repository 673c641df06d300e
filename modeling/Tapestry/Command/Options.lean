import Tapestry.Text.Quoted

/-!
# Options

Options stand before the operands. They start with one or two hyphens. A switch stands alone or
takes a truth value after an equals sign; other options take what follows the sign, or the next
word. Two hyphens alone end the options, and so does the first word that is none.
-/

namespace Tapestry.Command

/-- What a command line asks for. -/
structure Options where
  verbose : Bool := false
  emit : Bool := false
  output : Text := []
  image : Text := []
  listing : Bool := false
  tree : Bool := false
  run : Bool := false
  input : Text := []
  memory : Bool := false
  eof : Text := []
  maxSteps : Int := 0
  maxDepth : Int := 0
  cache : Text := []
  noCache : Bool := false
  libraries : Text := []
  deriving DecidableEq, Repr

/-- What an option takes, and what it sets. -/
inductive Setting where
  | switch (set : Options → Bool → Options)
  | text (set : Options → Text → Options)
  | number (set : Options → Int → Options)

/-- The options by name. -/
def table : List (Text × Setting) :=
  [("v", .switch fun o b => { o with verbose := b }),
    ("emit", .switch fun o b => { o with emit := b }),
    ("o", .text fun o t => { o with output := t }),
    ("image", .text fun o t => { o with image := t }),
    ("disasm", .switch fun o b => { o with listing := b }),
    ("tree", .switch fun o b => { o with tree := b }),
    ("run", .switch fun o b => { o with run := b }),
    ("input", .text fun o t => { o with input := t }),
    ("mem", .switch fun o b => { o with memory := b }),
    ("eof", .text fun o t => { o with eof := t }),
    ("max-steps", .number fun o n => { o with maxSteps := n }),
    ("max-depth", .number fun o n => { o with maxDepth := n }),
    ("cache", .text fun o t => { o with cache := t }),
    ("no-cache", .switch fun o b => { o with noCache := b }),
    ("I", .text fun o t => { o with libraries := t })]

/-- How to use the command. -/
def usage : Text :=
  Text.ofString <| String.join <| List.map (· ++ "\n") [
    "Usage: brc [options] [file.br | file.brimg]",
    "       brc test [-v] [file.br | dir]...",
    "       brc cache ls|rm <name>|clear",
    "       brc lsp",
    "",
    "Compiles a brain program. Without a file, the entry of the",
    "nearest brain.toml is built.",
    "",
    "Options:",
    "  -I string",
    "    \tColon-separated import search path",
    "  -cache string",
    "    \tBuild cache database",
    "  -disasm",
    "    \tPrint a disassembly listing",
    "  -emit",
    "    \tWrite the eight-symbol program text",
    "  -eof string",
    "    \tRead behavior at end of input: halt, zero or keep",
    "  -image string",
    "    \tWrite a compiled image (.brimg) to this path",
    "  -input string",
    "    \tRead program input from this file (default stdin)",
    "  -max-depth int",
    "    \tMaximum macro expansion depth",
    "  -max-steps int",
    "    \tStop -run after this many instructions (0 = no limit)",
    "  -mem",
    "    \tPrint the non-zero cells after -run",
    "  -no-cache",
    "    \tIgnore the build cache",
    "  -o string",
    "    \tWrite -emit output to a file instead of stdout",
    "  -run",
    "    \tRun the program",
    "  -tree",
    "    \tPrint the compile tree",
    "  -v\tVerbose output",
    "",
    "Examples:",
    "  brc hello.br                  # Print program text",
    "  brc -run hello.br             # Compile and run",
    "  brc -image hello.brimg hello.br",
    "  brc -run -mem hello.brimg     # Run a saved image"]

/-- Why a command line is not understood. -/
inductive Misuse where
  /-- Help was asked for. -/
  | help
  | badForm (word : Text)
  | unknown (name : Text)
  | noArgument (name : Text)
  | badSwitch (name value : Text)
  | badNumber (name value : Text) (problem : Number.Problem)
  deriving DecidableEq, Repr

/-- The line that says what is wrong; asking for help is not wrong. -/
def Misuse.complaint? : Misuse → Option Text
  | help => none
  | badForm word => some ("bad flag syntax: " ++ word)
  | unknown name => some ("flag provided but not defined: -" ++ name)
  | noArgument name => some ("flag needs an argument: -" ++ name)
  | badSwitch name value =>
    some ("invalid boolean value " ++ Quoted.write value ++ " for -" ++ name ++ ": parse error")
  | badNumber name value problem =>
    let reason : Text := match problem with | .malformed => "parse error" | .outOfRange => "value out of range"
    some ("invalid value " ++ Quoted.write value ++ " for flag -" ++ name ++ ": " ++ reason)

/-- What a word of the command line is. -/
inductive Word where
  /-- No option; options end before it. -/
  | operand
  /-- Options end after it. -/
  | terminator
  | malformed
  | option (name : Text) (value : Option Text)
  deriving DecidableEq, Repr

/-- Divide a name from a value at an equals sign. The name has at least one byte. -/
def divide (word : Text) : Text × Option Text :=
  let tail := word.drop 1
  let name := tail.takeWhile (· != 61)
  if name.length = tail.length then (word, none)
  else (word.take 1 ++ name, some (tail.drop (name.length + 1)))

/-- Tell what a word is. -/
def Word.ofText : Text → Word
  | [45, 45] => .terminator
  | 45 :: second :: rest =>
    let name := if second = 45 then rest else second :: rest
    match name with
    | [] => .malformed
    | first :: _ =>
      if first = 45 || first = 61 then .malformed
      else let (name, value) := divide name; .option name value
  | _ => .operand

/-- A truth value. -/
def truth? (t : Text) : Option Bool :=
  if ["1", "t", "T", "TRUE", "true", "True"].any (Text.ofString · == t) then some true
  else if ["0", "f", "F", "FALSE", "false", "False"].any (Text.ofString · == t) then some false
  else none

/-- Set a switch, on unless it says otherwise. -/
def setSwitch (options : Options) (set : Options → Bool → Options) (name : Text) (value : Option Text) :
    Except Misuse Options :=
  match value with
  | none => .ok (set options true)
  | some value =>
    match truth? value with
    | some b => .ok (set options b)
    | none => .error (.badSwitch name value)

/-- Set an option that takes a value. -/
def setValue (options : Options) (option : Setting) (name value : Text) : Except Misuse Options :=
  match option with
  | .switch set => setSwitch options set name (some value)
  | .text set => .ok (set options value)
  | .number set =>
    match Number.literal value with
    | .ok n => .ok (set options n)
    | .error problem => .error (.badNumber name value problem)

/-- Read the options in front of the operands. -/
def readOptions (options : Options) : List Text → Except Misuse (Options × List Text)
  | [] => .ok (options, [])
  | word :: rest =>
    match Word.ofText word with
    | .operand => .ok (options, word :: rest)
    | .terminator => .ok (options, rest)
    | .malformed => .error (.badForm word)
    | .option name value =>
      match table.lookup name, value with
      | none, _ => .error (if name == "help" || name == "h" then .help else .unknown name)
      | some (.switch set), _ => do readOptions (← setSwitch options set name value) rest
      | some option, some value => do readOptions (← setValue options option name value) rest
      | some option, none =>
        match rest with
        | [] => .error (.noArgument name)
        | value :: rest => do readOptions (← setValue options option name value) rest

end Tapestry.Command

import Tapestry.Text.Quoted

/-!
# End of input

What reading does once the input is used up is a matter of policy: stop, store zero, or leave
the cell alone.
-/

namespace Tapestry

/-- What a read does at the end of the input. -/
inductive EofPolicy where
  /-- Stop as if the program had come to its end. -/
  | halt
  /-- Store zero and go on. -/
  | zero
  /-- Leave the cell as it is and go on. -/
  | keep
  /-- A number that stands for no policy; it stops like `halt`. -/
  | unknown (code : Int)
  deriving DecidableEq, Repr

namespace EofPolicy

/-- The policies that have a name, in the order of their numbers. -/
def all : List EofPolicy := [halt, zero, keep]

/-- The policy with a given number. -/
def ofCode (code : Int) : EofPolicy :=
  match code with
  | 0 => halt
  | 1 => zero
  | 2 => keep
  | code => unknown code

/-- The number of a policy. -/
def code : EofPolicy → Int
  | halt => 0
  | zero => 1
  | keep => 2
  | unknown code => code

/-- The name of a policy. -/
def name : EofPolicy → Text
  | halt => "halt"
  | zero => "zero"
  | keep => "keep"
  | unknown code => "EOFPolicy(" ++ Number.int code ++ ")"

/-- The policy a name stands for, in letters of either case. -/
def ofName? (name : Text) : Option EofPolicy := all.find? fun policy => Utf8.equalFold policy.name name

/-- Complaint about a name that stands for no policy. -/
def unknownName (name : Text) : Text :=
  "vm: unknown eof policy " ++ Quoted.write name ++ " (want halt, zero or keep)"

/-- Read the name of a policy. -/
def read (name : Text) : Except Text EofPolicy :=
  match ofName? name with
  | some policy => .ok policy
  | none => .error (unknownName name)

end EofPolicy

end Tapestry

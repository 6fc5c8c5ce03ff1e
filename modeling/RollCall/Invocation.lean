import RollCall.Failure
import RollCall.Seed
import RollCall.Text.Utf8

/-!
# Invocations

The program is called with a mode and a seed, after its own name. Arguments are bytes: they are read
leniently, so damage in a seed is hashed as replacement characters, and a damaged mode is no mode.
The number of arguments is looked at before the mode.
-/

namespace RollCall

/-- What the program is asked to do. -/
inductive Mode where
  | fuzz
  | judge
  deriving DecidableEq

namespace Mode

def name : Mode → String
  | fuzz => "fuzz"
  | judge => "judge"

def ofName (name : String) : Except Failure Mode :=
  if name = "fuzz" then .ok fuzz
  else if name = "judge" then .ok judge
  else .error (.unknownMode name)

end Mode

structure Invocation where
  mode : Mode
  seed : Seed
  deriving DecidableEq

namespace Invocation

/-- The name of the program where it was not told. -/
def standardProgram : String :=
  "hello-keith"

def ofMode (mode : String) (seed : Seed) : Except Failure Invocation :=
  (Mode.ofName mode).map (⟨·, seed⟩)

/-- The invocation that a list of arguments stands for, the program's own name first. -/
def ofArguments (arguments : List (List UInt8)) : Except Failure Invocation :=
  match arguments.map Utf8.lenient with
  | [_, mode, seed] => ofMode mode ⟨seed⟩
  | [] => .error (.usage standardProgram)
  | program :: _ => .error (.usage program)

end Invocation

end RollCall

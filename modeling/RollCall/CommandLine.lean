import RollCall.Session

/-!
# The command line

The program sets or marks the standard exercise. All that it prints besides the names is the message
of a failure, on a line of its own on the error output.
-/

namespace RollCall

structure Exit where
  code : UInt8
  stdout : List UInt8
  stderr : String
  deriving DecidableEq

namespace CommandLine

/-- How a session with this verdict ends the program, once it has written these bytes. -/
def ending (verdict : Verdict) (written : List UInt8) : Exit :=
  match verdict with
  | .ok () => ⟨0, written, ""⟩
  | .error failure => ⟨failure.exitCode, written, failure.message ++ "\n"⟩

/-- How the program ends when it is called with these arguments, its own name first, on this
input. -/
def execute (arguments : List (List UInt8)) (stdin : List Delivery) : Except Fault Exit :=
  match Invocation.ofArguments arguments with
  | .error failure => .ok (ending (.error failure) [])
  | .ok invocation =>
    (Session.run invocation Exercise.standard stdin {}).map fun report =>
      ending report.verdict report.output.received.toList

/-- Whether a call with these arguments looks at its input. -/
def readsInput (arguments : List (List UInt8)) : Bool :=
  match Invocation.ofArguments arguments with
  | .ok invocation => invocation.mode = .judge
  | .error _ => false

end CommandLine

end RollCall

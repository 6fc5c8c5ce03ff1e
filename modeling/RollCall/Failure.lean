import RollCall.Pool

/-!
# Failures

A failure is how an invocation or an answer goes wrong. Each has one message, the text that the
user reads, and all of them end the program with the same exit code.
-/

namespace RollCall

/-- How an invocation or an answer goes wrong. -/
inductive Failure where
  | usage (program : String)
  | unknownMode (mode : String)
  /-- The answer has a line that is not empty after the last one expected. -/
  | surplusLine
  /-- The line of this number, counted from 1, is not the one expected. -/
  | mismatch (number : Nat) (expected actual : String)
  /-- The answer ends before all lines have come. -/
  | missingLines (expected got : Nat)
  | badPool (cause : PoolError)
  | channel (text : String)
  deriving DecidableEq

namespace Failure

def message : Failure → String
  | usage program => "Usage: " ++ program ++ " <fuzz | judge> <seed>"
  | unknownMode mode => "Unknown method: " ++ mode
  | surplusLine => "Too many lines."
  | mismatch number expected actual =>
    "Case: " ++ toString number ++ " expected: \"" ++ expected ++ "\", got: \"" ++ actual ++ "\""
  | missingLines expected got =>
    "Too few lines. Expected " ++ toString expected ++ ", got " ++ toString got
  | badPool cause => "invalid checker configuration: " ++ cause.message
  | channel text => text

def exitCode (_ : Failure) : UInt8 :=
  1

end Failure

/-- The outcome of marking an answer, or of a whole session. -/
abbrev Verdict := Except Failure Unit

end RollCall

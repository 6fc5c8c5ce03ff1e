import RollCall.Invocation

/-!
# The log of a session

A session tells what it does as a list of events. Each event has a level, a part of the program that
it comes from, a message and some fields of text.
-/

namespace RollCall

inductive Level where
  | debug
  | info
  deriving DecidableEq

inductive Part where
  | session
  | judge
  deriving DecidableEq

/-- Something that happens in a session. -/
inductive Event where
  /-- The seed is hashed and the order of that many names is made. -/
  | resolved (mode : Mode) (digest : Digest) (names : Nat)
  /-- That many names are written and flushed. -/
  | namesWritten (names : Nat)
  /-- The answer is read, so many bytes long. -/
  | answerRead (bytes : Nat)
  /-- No line of the answer failed, and it has ended. -/
  | answerEnded (matched expected : Nat)
  | accepted
  | rejected (failure : Failure)
  deriving DecidableEq

namespace Event

def ofVerdict : Verdict → Event
  | .ok () => accepted
  | .error failure => rejected failure

def level : Event → Level
  | resolved .. | answerRead _ | answerEnded .. => .debug
  | namesWritten _ | accepted | rejected _ => .info

def part : Event → Part
  | answerEnded .. => .judge
  | _ => .session

def message : Event → String
  | resolved .. => "resolved invocation"
  | namesWritten _ => "wrote fuzz input"
  | answerRead _ => "read candidate output"
  | answerEnded .. => "input exhausted"
  | accepted => "candidate output accepted"
  | rejected _ => "candidate output rejected"

/-- The fields of an event besides its message. -/
def fields : Event → List (String × String)
  | resolved mode digest names =>
    [("mode", mode.name), ("seed_hash", digest.toHex), ("seed_u64", toString digest.lead),
      ("names", toString names)]
  | namesWritten names => [("names", toString names)]
  | answerRead bytes => [("bytes", toString bytes)]
  | answerEnded matched expected =>
    [("matched", toString matched), ("expected", toString expected)]
  | accepted => []
  | rejected failure => [("error", failure.message)]

end Event

end RollCall

import RollCall.Greeting
import RollCall.Log
import RollCall.Text.Lines

/-!
# Judging

A judge knows an order and a greeting and hears the lines of an answer one by one. As long as lines
are expected, each must be the next one expected, to the letter; after them only empty lines may
come. A line that fails is not counted and changes nothing. Once the answer has ended, what remains
to be seen is whether all lines came.
-/

namespace RollCall

/-- A judge, and how many of the lines it expects have come. -/
structure Judge where
  order : Order
  greeting : Greeting
  matched : Nat := 0
  deriving DecidableEq

namespace Judge

/-- The verdict on the next line, and the judge after it. -/
def hear (j : Judge) (line : String) : Verdict × Judge :=
  match j.order.expected? j.greeting j.matched with
  | none => (if line = "" then .ok () else .error .surplusLine, j)
  | some expected =>
    if line = expected then (.ok (), { j with matched := j.matched + 1 })
    else (.error (.mismatch (j.matched + 1) expected line), j)

def close (j : Judge) : Verdict :=
  if j.matched < j.order.size then .error (.missingLines j.order.size j.matched) else .ok ()

/-- Hears lines up to the first that fails. -/
def scan (j : Judge) : List String → Verdict × Judge
  | [] => (.ok (), j)
  | line :: rest =>
    match j.hear line with
    | (.ok (), next) => next.scan rest
    | (.error failure, next) => (.error failure, next)

/-- Hears all lines, also after failures: for each its verdict and the judge after it. -/
def history (j : Judge) : List String → List (Verdict × Judge)
  | [] => []
  | line :: rest =>
    let heard := j.hear line
    heard :: heard.2.history rest

/-- The judge after all lines, also after failures. -/
def afterAll (j : Judge) (lines : List String) : Judge :=
  lines.foldl (fun judge line => (judge.hear line).2) j

/-- The verdict on an answer whose lines are these, and what is told of it. -/
def conclude (j : Judge) (lines : List String) : Verdict × List Event :=
  match j.scan lines with
  | (.ok (), last) => (last.close, [.answerEnded last.matched last.order.size])
  | (.error failure, _) => (.error failure, [])

end Judge

namespace Order

def examine (o : Order) (g : Greeting) (answer : String) : Verdict × List Event :=
  Judge.conclude ⟨o, g, 0⟩ (Lines.ofText answer)

def mark (o : Order) (g : Greeting) (answer : String) : Verdict :=
  (o.examine g answer).1

end Order

end RollCall

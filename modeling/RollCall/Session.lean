import RollCall.Channel
import RollCall.Exercise
import RollCall.Judge

/-!
# Sessions

A session is one run of the program on an exercise. It makes the order of the seed, and then, by the
mode, either writes the names in that order, a line for each, or reads an answer and marks it. It
never does both: one mode leaves the input alone, the other the output.
-/

namespace RollCall

/-- What a session comes to: the verdict, the sink after it, the number of bytes it read, and what
it told on the way. -/
structure Report where
  verdict : Verdict
  output : Sink
  consumed : Nat
  events : List Event

namespace Order

/-- The names as lines in bytes, each ended by a line feed. -/
def nameLines (o : Order) : List (List UInt8) :=
  o.names.map fun name => Utf8.encode name ++ [0x0A]

def publish (o : Order) (output : Sink) : Except String Unit × Sink :=
  match output.writeEach o.nameLines with
  | (.ok (), written) => written.flush
  | (.error text, written) => (.error text, written)

end Order

namespace Session

/-- The session that sets the exercise: it writes the names. -/
def pose (order : Order) (output : Sink) : Report :=
  match order.publish output with
  | (.ok (), output) => ⟨.ok (), output, 0, [.namesWritten order.size]⟩
  | (.error text, output) => ⟨.error (.channel text), output, 0, []⟩

/-- The session that marks an answer: all of it is read before any of it is looked at. -/
def assess (order : Order) (greeting : Greeting) (input : List Delivery) (output : Sink) : Report :=
  let intake := drain input
  match intake.failure? with
  | some text => ⟨.error (.channel text), output, intake.bytes.length, []⟩
  | none =>
    let examined := order.examine greeting (Utf8.lenient intake.bytes)
    ⟨examined.1, output, intake.bytes.length,
      .answerRead intake.bytes.length :: examined.2 ++ [.ofVerdict examined.1]⟩

def run (invocation : Invocation) (exercise : Exercise) (input : List Delivery) (output : Sink) :
    Except Fault Report :=
  match Order.ofSeed invocation.seed exercise.pool with
  | .error fault => .error fault
  | .ok order =>
    let report := match invocation.mode with
      | .fuzz => pose order output
      | .judge => assess order exercise.greeting input output
    let resolved := Event.resolved invocation.mode invocation.seed.digest order.size
    .ok { report with events := resolved :: report.events }

end Session

end RollCall

import RollCall.Failure
import RollCall.Greeting

/-!
# Exercises

An exercise is what a candidate is asked: to greet the names of a pool, in the order given. A seed
then fixes the order.
-/

namespace RollCall

structure Exercise where
  pool : Pool
  greeting : Greeting
  deriving DecidableEq

namespace Exercise

def standard : Exercise :=
  ⟨Pool.standard, Greeting.standard⟩

instance : Inhabited Exercise := ⟨standard⟩

/-- The exercise of greeting these names in the standard way. -/
def ofNames (names : List String) : Except Failure Exercise :=
  match Pool.ofList names with
  | .ok pool => .ok ⟨pool, Greeting.standard⟩
  | .error cause => .error (.badPool cause)

def withPool (e : Exercise) (pool : Pool) : Exercise :=
  { e with pool }

def withGreeting (e : Exercise) (greeting : Greeting) : Exercise :=
  { e with greeting }

end Exercise

end RollCall

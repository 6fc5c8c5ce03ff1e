import RollCall.Order

/-!
# Greetings

A greeting is what a candidate says to each name: a text before it and a text after it. Said to the
names of an order, in order, it gives the lines that are expected, and joined they are the model
answer.
-/

namespace RollCall

/-- The text around a name. -/
structure Greeting where
  before : String
  after : String
  deriving DecidableEq

namespace Greeting

def standard : Greeting :=
  ⟨"Hello, ", "!"⟩

instance : Inhabited Greeting := ⟨standard⟩

def greet (g : Greeting) (name : String) : String :=
  g.before ++ name ++ g.after

theorem notMem_greet_iff {g : Greeting} {name : String} {c : Char} :
    c ∉ (g.greet name).toList ↔
      c ∉ g.before.toList ∧ c ∉ name.toList ∧ c ∉ g.after.toList := by
  simp [greet, String.toList_append]

end Greeting

namespace Order

def expected? (o : Order) (g : Greeting) (i : Nat) : Option String :=
  (o.get? i).map g.greet

def expected (o : Order) (g : Greeting) : List String :=
  o.names.map g.greet

theorem expected?_eq (o : Order) (g : Greeting) (i : Nat) :
    o.expected? g i = (o.expected g)[i]? := by
  simp [expected?, expected, get?]

theorem length_expected (o : Order) (g : Greeting) : (o.expected g).length = o.size := by
  simp [expected, size]

/-- The model answer: the lines expected with a line feed between them, and none at the end. -/
def modelAnswer (o : Order) (g : Greeting) : String :=
  "\n".intercalate (o.expected g)

end Order

end RollCall

/-!
# Word sources

A draw asks for 32-bit words one after another and does not care where they come from. A source is
any state that yields a word and the state after it. The plainest source is a tape: all the words
laid out at once, and the position of the next one.
-/

namespace RollCall

/-- A state that yields 32-bit words one at a time. -/
class WordSource (σ : Type) where
  /-- The next word, and the state after it has been taken. -/
  next : σ → UInt32 × σ

/-- An endless tape of words with the position of the next one. -/
structure Tape where
  word : Nat → UInt32
  position : Nat := 0

def Tape.advance (t : Tape) : Tape :=
  { t with position := t.position + 1 }

instance : WordSource Tape where
  next t := (t.word t.position, t.advance)

end RollCall

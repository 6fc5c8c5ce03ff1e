/-!
# Lines

A line ends at a line feed, and a carriage return directly before that line feed belongs to the
ending. What stands after the last line feed is a line too, kept as it is, unless it is empty.
Nothing else ends a line: a carriage return on its own is a character like any other.

The rule needs nothing of its characters but to tell the two apart from the rest, so it is stated
for lists over any type.
-/

namespace RollCall.Lines

variable {α : Type} [DecidableEq α]

/-- Puts an element before some pieces: into the first of them, or on its own if it is `stop`. -/
def attach (stop x : α) (later : List (List α)) : List (List α) :=
  if x = stop then [x] :: later
  else match later with
    | [] => [[x]]
    | piece :: others => (x :: piece) :: others

/-- The list cut after each `stop`. -/
def pieces (stop : α) (xs : List α) : List (List α) :=
  xs.foldr (attach stop) []

@[simp] theorem pieces_nil (stop : α) : pieces stop [] = [] := rfl

theorem pieces_cons (stop x : α) (xs : List α) :
    pieces stop (x :: xs) = attach stop x (pieces stop xs) := rfl

/-- A piece without its ending: without a final `lf`, and without a `cr` directly before it. -/
def chomp (lf cr : α) (piece : List α) : List α :=
  if piece.getLast? = some lf then
    let body := piece.dropLast
    if body.getLast? = some cr then body.dropLast else body
  else piece

/-- The lines of a list whose line feed is `lf` and whose carriage return is `cr`. -/
def split (lf cr : α) (xs : List α) : List (List α) :=
  (pieces lf xs).map (chomp lf cr)

def ofText (text : String) : List String :=
  (split '\n' '\r' text.toList).map String.ofList

end RollCall.Lines

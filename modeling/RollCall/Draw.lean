import RollCall.Fault
import RollCall.Source

/-!
# Bounded draws

A draw below `len` scales a random number of `B` bits down: of the product of that number and `len`,
the part above `2 ^ B` is the result. The low part tells whether more random bits could still carry
into the result; only then a second number of `B` bits is drawn, and at most 1 is added. So a draw
takes one number or two, never more, and its result is the one that `2 * B` bits would have given.
Numbers of 32 bits serve lengths below `2 ^ 32`, numbers of 64 bits the lengths from there on.
-/

namespace RollCall

/-- How many bits the numbers of a draw have. -/
inductive Width where
  | narrow
  | wide
  deriving DecidableEq

namespace Width

def bits : Width → Nat
  | narrow => 32
  | wide => 64

/-- How many numbers of this width there are. -/
def span (w : Width) : Nat :=
  1 <<< w.bits

/-- The width that serves a length. -/
def ofLength (len : Nat) : Width :=
  if len < narrow.span then narrow else wide

variable {σ : Type} [WordSource σ]

/-- A number of this width: one word, or two with the low one first. -/
def number (w : Width) (s : σ) : Nat × σ :=
  let low := WordSource.next s
  match w with
  | narrow => (low.1.toNat, low.2)
  | wide =>
    let high := WordSource.next low.2
    (high.1.toNat * narrow.span + low.1.toNat, high.2)

/-- A draw below `len` with numbers of this width. -/
def scale (w : Width) (len : Nat) (s : σ) : Nat × σ :=
  let x := w.number s
  let high := x.1 * len / w.span
  let low := x.1 * len % w.span
  if w.span - len < low then
    let y := w.number x.2
    if w.span ≤ low + y.1 * len / w.span then (high + 1, y.2) else (high, y.2)
  else (high, x.2)

end Width

/-- A draw below `len`, for lengths below `2 ^ 64`. There is nothing below zero, and nothing is
taken from the source then. -/
def drawBelow {σ : Type} [WordSource σ] (len : Nat) (s : σ) : Except Fault (Nat × σ) :=
  if len = 0 then .error .emptyRange else .ok ((Width.ofLength len).scale len s)

end RollCall

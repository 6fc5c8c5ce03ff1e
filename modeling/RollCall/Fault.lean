/-!
# Faults

A fault is a request that has no answer: a draw from nothing, or a place beyond the end, where an
element is to be looked at or to be taken out. The caller, not the candidate, is to blame for it,
and no session ever meets one.
-/

namespace RollCall

/-- A request that has no answer. -/
inductive Fault where
  | emptyRange
  /-- The place `index` in a list of `len` elements that ends before it. -/
  | outOfBounds (len index : Nat)
  /-- The same place, of an element that is to be taken out. -/
  | notRemovable (len index : Nat)
  deriving DecidableEq

def Fault.message : Fault → String
  | .emptyRange => "cannot sample empty range"
  | .outOfBounds len index =>
    "index out of bounds: the len is " ++ toString len ++ " but the index is " ++ toString index
  | .notRemovable len index =>
    "removal index (is " ++ toString index ++ ") should be < len (is " ++ toString len ++ ")"

end RollCall

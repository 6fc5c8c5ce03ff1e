import RollCall.Draw
import RollCall.Keystream
import RollCall.Pool

/-!
# Orders

An order arranges the names of a pool. It is made by selection: as long as names remain, one place
among them is drawn, and the name there is taken out and put next. With fair draws every
arrangement is as likely as any other. The draws never look at the names, so a seed stands for one
rearrangement of places, whatever the names are.
-/

namespace RollCall

/-- Takes the elements out one by one, each at the place that is drawn below the number of those
that remain. -/
def select {α σ : Type} (draw : Nat → σ → Except Fault (Nat × σ)) (remaining : List α) (s : σ) :
    Except Fault (List α × σ) :=
  match remaining with
  | [] => .ok ([], s)
  | first :: others =>
    match draw (first :: others).length s with
    | .error fault => .error fault
    | .ok (i, s) =>
      if h : i < (first :: others).length then
        match select draw ((first :: others).eraseIdx i) s with
        | .error fault => .error fault
        | .ok (rest, s) => .ok ((first :: others)[i] :: rest, s)
      else .error (.notRemovable (first :: others).length i)
termination_by remaining.length
decreasing_by
  rw [List.length_eraseIdx_of_lt h]
  simp

/-- The names of a pool, arranged. -/
structure Order where
  names : List String
  deriving DecidableEq

/-- Arranges a pool with draws from a source, and gives the source after them. -/
def Pool.shuffle {σ : Type} [WordSource σ] (p : Pool) (s : σ) : Except Fault (Order × σ) :=
  (select drawBelow p.names s).map fun drawn => (⟨drawn.1⟩, drawn.2)

namespace Order

def ofSeed (seed : Seed) (pool : Pool) : Except Fault Order :=
  (pool.shuffle (Keystream.ofSeed seed)).map (·.1)

def size (o : Order) : Nat :=
  o.names.length

def isEmpty (o : Order) : Bool :=
  o.names.isEmpty

def get? (o : Order) (i : Nat) : Option String :=
  o.names[i]?

def nth (o : Order) (i : Nat) : Except Fault String :=
  match o.get? i with
  | some name => .ok name
  | none => .error (.outOfBounds o.size i)

end Order

end RollCall

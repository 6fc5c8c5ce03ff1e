import Std.Data.HashSet

/-!
# Pools

A pool is the list of names that an order arranges. It holds at least one name and none twice; the
place of a name in an order would mean nothing otherwise. A list that is no pool is refused, and
when it repeats names, the one blamed is the first that was already there.
-/

namespace RollCall

/-- Why a list of names is no pool. -/
inductive PoolError where
  | empty
  | duplicate (name : String)
  deriving DecidableEq

def PoolError.message : PoolError → String
  | .empty => "name pool must contain at least one name"
  | .duplicate name => "duplicate name '" ++ name ++ "' in name pool"

structure Pool where
  names : List String
  names_ne_nil : names ≠ []
  nodup : names.Nodup
  deriving DecidableEq

namespace Pool

/-- The first name that was seen before, given the names seen so far. -/
def firstSeen? (seen : Std.HashSet String) : List String → Option String
  | [] => none
  | name :: rest => if name ∈ seen then some name else firstSeen? (seen.insert name) rest

/-- The first name of a list that stands in it earlier as well. -/
def firstRepeat? (names : List String) : Option String :=
  firstSeen? ∅ names

theorem nodup_of_firstSeen?_eq_none {seen : Std.HashSet String} {names : List String}
    (h : firstSeen? seen names = none) : names.Nodup ∧ ∀ name ∈ names, name ∉ seen := by
  induction names generalizing seen with
  | nil => simp
  | cons name rest ih =>
    rw [firstSeen?] at h
    split at h
    · simp at h
    · rename_i fresh
      obtain ⟨nodup, unseen⟩ := ih h
      have later : ∀ other ∈ rest, ¬ name = other ∧ other ∉ seen := fun other member => by
        simpa using unseen other member
      refine ⟨List.nodup_cons.2 ⟨fun member => (later name member).1 rfl, nodup⟩, ?_⟩
      intro other member
      rcases List.mem_cons.1 member with rfl | member
      · exact fresh
      · exact (later other member).2

theorem nodup_of_firstRepeat?_eq_none {names : List String} (h : firstRepeat? names = none) :
    names.Nodup :=
  (nodup_of_firstSeen?_eq_none h).1

/-- The pool of a list of names, in the same order. -/
def ofList (names : List String) : Except PoolError Pool :=
  if names_ne_nil : names = [] then .error .empty
  else match nodup : firstRepeat? names with
    | some name => .error (.duplicate name)
    | none => .ok ⟨names, names_ne_nil, nodup_of_firstRepeat?_eq_none nodup⟩

def standard : Pool where
  names := ["Bjarne", "Keith", "Alice", "Bob", "Charlie"]
  names_ne_nil := by decide
  nodup := by decide

instance : Inhabited Pool := ⟨standard⟩

def size (p : Pool) : Nat :=
  p.names.length

/-- Whether there is no name, which never happens. -/
def isEmpty (p : Pool) : Bool :=
  p.names.isEmpty

end Pool

end RollCall

import Mathlib.Data.List.Nodup
import Mathlib.Order.Bounds.Basic
import RollCall.Pool

/-!
# Which lists are pools

A list is no pool if it is empty, or if some name stands where it has stood
before (`RepeatsAt`); the first such place is where the blame falls. The search
for it goes once over the list and keeps the names that it has seen, and
`firstSeen?_cases` carries the invariant: those are the names before the place
it has come to, and none of them repeats. So it finds what comparing each name
with all before it would find (`ofList_verdict`).
-/

namespace RollCall.Pool

variable {names before : List String} {name : String}

/-! ## Repeats by place -/

/-- The name at this place stands at an earlier one as well. -/
def RepeatsAt (names : List String) (j : ℕ) : Prop :=
  j < names.length ∧ ∃ i < j, names[i]? = names[j]?

theorem nodup_iff_not_repeatsAt : names.Nodup ↔ ∀ j, ¬ RepeatsAt names j := by
  rw [List.nodup_iff_getElem?_ne_getElem?]
  constructor
  · rintro h j ⟨hj, i, hi, heq⟩
    exact h i j hi hj heq
  · intro h i j hi hj heq
    exact h j ⟨hj, i, hi, heq⟩

/-- A name that is among those before it, where these do not repeat, makes the
first repeat. -/
theorem isLeast_repeatsAt (hbefore : before.Nodup) (hname : name ∈ before)
    (after : List String) :
    IsLeast {j | RepeatsAt (before ++ name :: after) j} before.length := by
  constructor
  · obtain ⟨i, hi⟩ := List.mem_iff_getElem?.mp hname
    have hlt := (List.getElem?_eq_some_iff.mp hi).1
    refine ⟨by simp, i, hlt, ?_⟩
    rw [List.getElem?_append_left hlt, hi]
    simp
  · rintro j ⟨-, i, hi, heq⟩
    by_contra hlt
    rw [Nat.not_le] at hlt
    rw [List.getElem?_append_left hlt,
      List.getElem?_append_left (hi.trans hlt)] at heq
    exact nodup_iff_not_repeatsAt.mp hbefore j ⟨hlt, i, hi, heq⟩

/-! ## The search -/

/-- Given that exactly the names before have been seen, and none twice, either
none repeats in the rest, or the first that does is found. -/
theorem firstSeen?_cases {seen : Std.HashSet String}
    (hseen : ∀ other, other ∈ seen ↔ other ∈ before) (hbefore : before.Nodup)
    (rest : List String) :
    (firstSeen? seen rest = none ∧ (before ++ rest).Nodup) ∨
      ∃ fresh name after, rest = fresh ++ name :: after ∧
        firstSeen? seen rest = some name ∧ (before ++ fresh).Nodup ∧
        name ∈ before ++ fresh := by
  induction rest generalizing seen before with
  | nil => exact Or.inl ⟨rfl, by simpa using hbefore⟩
  | cons x rest ih =>
      by_cases hx : x ∈ seen
      · right
        refine ⟨[], x, rest, rfl, ?_, by simpa using hbefore, ?_⟩
        · rw [firstSeen?, if_pos hx]
        · simpa using (hseen x).mp hx
      · -- one more name is seen, and stands before the rest
        have hinsert : ∀ other,
            other ∈ seen.insert x ↔ other ∈ before ++ [x] := by
          intro other
          rw [Std.HashSet.mem_insert, beq_iff_eq, hseen, List.mem_append,
            List.mem_singleton, or_comm, eq_comm]
        have hnodup : (before ++ [x]).Nodup := by
          rw [List.nodup_append_comm, List.singleton_append, List.nodup_cons]
          exact ⟨fun hmem => hx ((hseen x).mpr hmem), hbefore⟩
        rw [firstSeen?, if_neg hx]
        rcases ih hinsert hnodup with
          ⟨hnone, hrest⟩ | ⟨fresh, name, after, rfl, hsome, hfresh, hname⟩
        · exact Or.inl ⟨hnone, by simpa using hrest⟩
        · exact Or.inr ⟨x :: fresh, name, after, rfl, hsome,
            by simpa using hfresh, by simpa using hname⟩

/-- What is found is the name at the first place that repeats. -/
theorem firstRepeat?_cases (names : List String) :
    (firstRepeat? names = none ∧ names.Nodup) ∨
      ∃ j name, IsLeast {j | RepeatsAt names j} j ∧ names[j]? = some name ∧
        firstRepeat? names = some name := by
  have hempty : ∀ other, other ∈ (∅ : Std.HashSet String) ↔ other ∈ [] := by
    simp
  rcases firstSeen?_cases hempty List.nodup_nil names with
    hnone | ⟨before, name, after, rfl, hsome, hbefore, hname⟩
  · exact Or.inl hnone
  · exact Or.inr ⟨before.length, name,
      isLeast_repeatsAt hbefore hname after, by simp, hsome⟩

theorem firstRepeat?_eq_none_iff :
    firstRepeat? names = none ↔ ∀ j, ¬ RepeatsAt names j := by
  rw [← nodup_iff_not_repeatsAt]
  refine ⟨nodup_of_firstRepeat?_eq_none, fun hnodup => ?_⟩
  rcases firstRepeat?_cases names with ⟨hnone, -⟩ | ⟨j, _, hj, -, -⟩
  · exact hnone
  · exact absurd hj.1 (nodup_iff_not_repeatsAt.mp hnodup j)

theorem firstRepeat?_eq_some_iff :
    firstRepeat? names = some name ↔
      ∃ j, IsLeast {j | RepeatsAt names j} j ∧ names[j]? = some name := by
  constructor
  · intro h
    rcases firstRepeat?_cases names with ⟨hnone, -⟩ | ⟨j, _, hj, hname, hsome⟩
    · cases h.symm.trans hnone
    · cases h.symm.trans hsome
      exact ⟨j, hj, hname⟩
  · rintro ⟨j, hj, hname⟩
    rcases firstRepeat?_cases names with
      ⟨-, hnodup⟩ | ⟨k, _, hk, hname', hsome⟩
    · exact absurd hj.1 (nodup_iff_not_repeatsAt.mp hnodup j)
    · obtain rfl := hj.unique hk
      rw [hsome, ← hname', hname]

/-! ## The naive search -/

/-- The first place whose name equals one at an earlier place, by comparing the
names at each two places. -/
def comparePlaces? (names : List String) : Option ℕ :=
  (List.range names.length).find? fun j =>
    (List.range j).any fun i => names[i]? = names[j]?

/-- The names of a pool, or what is wrong with them, by comparing the names at
each two places. -/
def compareAll (names : List String) : Except PoolError (List String) :=
  if names = [] then .error .empty
  else match (comparePlaces? names).bind (names[·]?) with
    | some name => .error (.duplicate name)
    | none => .ok names

theorem comparePlaces?_eq_some_iff {j : ℕ} :
    comparePlaces? names = some j ↔ IsLeast {j | RepeatsAt names j} j := by
  have hsome : ∀ k, ((List.range k).any fun i => names[i]? = names[k]?) ↔
      ∃ i < k, names[i]? = names[k]? := by simp
  have hnone : ∀ k, (!(List.range k).any fun i => names[i]? = names[k]?) ↔
      ¬ ∃ i < k, names[i]? = names[k]? := by simp
  rw [comparePlaces?, List.find?_range_eq_some, List.mem_range, hsome]
  simp only [hnone]
  constructor
  · rintro ⟨hi, hj, hfirst⟩
    refine ⟨⟨hj, hi⟩, ?_⟩
    rintro k ⟨-, hk⟩
    by_contra hlt
    exact hfirst k (Nat.not_le.mp hlt) hk
  · rintro ⟨⟨hj, hi⟩, hfirst⟩
    refine ⟨hi, hj, ?_⟩
    intro k hk hrepeat
    exact absurd (hfirst ⟨hk.trans hj, hrepeat⟩) (Nat.not_le.mpr hk)

theorem firstRepeat?_eq_comparePlaces? (names : List String) :
    firstRepeat? names = (comparePlaces? names).bind (names[·]?) := by
  apply Option.ext
  intro name
  rw [firstRepeat?_eq_some_iff, Option.bind_eq_some_iff]
  simp only [comparePlaces?_eq_some_iff]

/-! ## The pool of a list -/

theorem ofList_of_firstRepeat? (hne : names ≠ [])
    (h : firstRepeat? names = none) :
    ofList names = .ok ⟨names, hne, nodup_of_firstRepeat?_eq_none h⟩ := by
  rw [ofList, dif_neg hne]
  split
  · next hrepeat => simp [h] at hrepeat
  · rfl

theorem ofList_of_repeat (hne : names ≠ [])
    (h : firstRepeat? names = some name) :
    ofList names = .error (.duplicate name) := by
  rw [ofList, dif_neg hne]
  split
  · next found hfound =>
      cases hfound.symm.trans h
      rfl
  · next hnone => simp [h] at hnone

/-- All that a list of names can come to. -/
theorem ofList_cases (names : List String) :
    (names = [] ∧ firstRepeat? names = none ∧ ofList names = .error .empty) ∨
      (∃ name, names ≠ [] ∧ firstRepeat? names = some name ∧
        ofList names = .error (.duplicate name)) ∨
      ∃ pool, names ≠ [] ∧ firstRepeat? names = none ∧
        ofList names = .ok pool ∧ pool.names = names := by
  by_cases hne : names = []
  · subst hne
    exact Or.inl ⟨rfl, rfl, rfl⟩
  · right
    cases h : firstRepeat? names with
    | some name => exact Or.inl ⟨name, hne, rfl, ofList_of_repeat hne h⟩
    | none => exact Or.inr ⟨_, hne, rfl, ofList_of_firstRepeat? hne h, rfl⟩

theorem ofList_eq_empty_iff : ofList names = .error .empty ↔ names = [] := by
  rcases ofList_cases names with
    ⟨hnil, -, herror⟩ | ⟨name, hne, -, herror⟩ | ⟨pool, hne, -, hok, -⟩
  · exact iff_of_true herror hnil
  · simp [herror, hne]
  · simp [hok, hne]

theorem ofList_eq_duplicate_iff :
    ofList names = .error (.duplicate name) ↔
      firstRepeat? names = some name := by
  rcases ofList_cases names with
    ⟨-, hnone, herror⟩ | ⟨found, -, hsome, herror⟩ | ⟨pool, -, hnone, hok, -⟩
  · simp [herror, hnone]
  · simp [herror, hsome]
  · simp [hok, hnone]

theorem exists_ofList_iff :
    (∃ pool, ofList names = .ok pool ∧ pool.names = names) ↔
      names ≠ [] ∧ firstRepeat? names = none := by
  rcases ofList_cases names with
    ⟨hnil, -, herror⟩ | ⟨name, -, hsome, herror⟩ | ⟨pool, hne, hnone, hpool⟩
  · refine iff_of_false ?_ fun h => h.1 hnil
    simp [herror]
  · simp [herror, hsome]
  · exact iff_of_true ⟨pool, hpool⟩ ⟨hne, hnone⟩

theorem names_of_ofList {p : Pool} (h : ofList names = .ok p) :
    p.names = names ∧ names ≠ [] ∧ names.Nodup := by
  rcases ofList_cases names with
    ⟨-, -, herror⟩ | ⟨name, -, -, herror⟩ | ⟨pool, hne, hnone, hok, hnames⟩
  · cases h.symm.trans herror
  · cases h.symm.trans herror
  · cases h.symm.trans hok
    exact ⟨hnames, hne, nodup_of_firstRepeat?_eq_none hnone⟩

theorem map_names_ofList (names : List String) :
    (ofList names).map (·.names) = compareAll names := by
  rw [compareAll, ← firstRepeat?_eq_comparePlaces?]
  rcases ofList_cases names with
    ⟨hnil, -, herror⟩ | ⟨name, hne, hsome, herror⟩ |
      ⟨pool, hne, hnone, hok, hnames⟩
  · rw [if_pos hnil, herror]
    rfl
  · rw [if_neg hne, hsome, herror]
    rfl
  · rw [if_neg hne, hnone, hok]
    exact congrArg Except.ok hnames

/-- **Which lists are pools.** An empty list is refused as empty. A list with a
repeat is refused for the name at the first place where a name stands again,
which need not be the first of the names that repeat. Any other list makes a
pool of its names, in the same order. So the outcome is the one that comparing
the names at each two places leads to. -/
theorem ofList_verdict (names : List String) :
    (ofList names = .error .empty ↔ names = []) ∧
      ((∃ name, ofList names = .error (.duplicate name)) ↔
        ∃ j, RepeatsAt names j) ∧
      (∀ name, ofList names = .error (.duplicate name) ↔
        ∃ j, IsLeast {j | RepeatsAt names j} j ∧ names[j]? = some name) ∧
      ((∃ pool, ofList names = .ok pool ∧ pool.names = names) ↔
        names ≠ [] ∧ ¬ ∃ j, RepeatsAt names j) ∧
      (ofList names).map (·.names) = compareAll names := by
  have hfresh : (¬ ∃ j, RepeatsAt names j) ↔ firstRepeat? names = none := by
    rw [not_exists, firstRepeat?_eq_none_iff]
  refine ⟨ofList_eq_empty_iff, ?_, ?_, ?_, map_names_ofList names⟩
  · rw [← not_iff_not, hfresh, Option.eq_none_iff_forall_ne_some, not_exists]
    exact forall_congr' fun name => not_congr ofList_eq_duplicate_iff
  · intro name
    rw [ofList_eq_duplicate_iff, firstRepeat?_eq_some_iff]
  · rw [exists_ofList_iff, hfresh]

example :
    compareAll ["Ann", "Bob", "Bob", "Ann"] = .error (.duplicate "Bob") := by
  decide

end RollCall.Pool

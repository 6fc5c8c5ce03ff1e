import RollCall.Proofs.Marking

/-!
# A judge that goes on after failures

A judge may hear further lines after one has failed. A line that fails changes
nothing (`eq_of_hear_error`), so the lines that pass fare as they would have
without it (`history_passing`), and the judge ends up the same
(`afterAll_passing`). What the lines that pass can be is said by
`exists_passing`: some of those awaited, in order, and then blank ones, but
only if none is awaited any more.
-/

namespace RollCall

namespace Judge

/-! ## One line after another -/

/-- A line that fails leaves the judge as it was. -/
theorem eq_of_hear_error {j next : Judge} {line : String} {failure : Failure}
    (h : j.hear line = (.error failure, next)) : next = j := by
  rcases hear_cases j line with ⟨_, -, hok⟩ | ⟨-, -, hok⟩ | ⟨_, herror, -⟩
  · cases h.symm.trans hok
  · cases h.symm.trans hok
  · exact congrArg Prod.snd (h.symm.trans herror)

theorem history_cons (j : Judge) (line : String) (rest : List String) :
    j.history (line :: rest) =
      j.hear line :: (j.hear line).2.history rest := rfl

theorem afterAll_cons (j : Judge) (line : String) (rest : List String) :
    j.afterAll (line :: rest) = (j.hear line).2.afterAll rest := rfl

/-- Each line is heard by the judge that the ones before it have left. -/
theorem getElem?_history (j : Judge) (before : List String) (line : String)
    (after : List String) :
    (j.history (before ++ line :: after))[before.length]? =
      some ((j.afterAll before).hear line) := by
  induction before generalizing j with
  | nil => rfl
  | cons first before ih =>
      rw [List.cons_append, history_cons, List.length_cons,
        List.getElem?_cons_succ, ih, afterAll_cons]

/-! ## The lines that pass -/

/-- Those of some lines that do not fail, as one judge hears them all. -/
def passing (j : Judge) (lines : List String) : List String :=
  ((lines.zip (j.history lines)).filter fun heard => heard.2.1.isOk).map (·.1)

theorem passing_cons_of_ok {j next : Judge} {line : String}
    (h : j.hear line = (.ok (), next)) (rest : List String) :
    j.passing (line :: rest) = line :: next.passing rest := by
  simp [passing, history_cons, h, Except.isOk, Except.toBool]

theorem passing_cons_of_error {j next : Judge} {line : String}
    {failure : Failure} (h : j.hear line = (.error failure, next))
    (rest : List String) : j.passing (line :: rest) = next.passing rest := by
  simp [passing, history_cons, h, Except.isOk, Except.toBool]

/-- The lines that pass are some of those awaited and, once none is left, blank
ones; the former are counted and the latter are not. -/
theorem exists_passing (j : Judge) (lines : List String) :
    ∃ came later blanks, j.awaited = came ++ later ∧
      j.afterAll lines = j.after came.length ∧
      j.passing lines = came ++ List.replicate blanks "" ∧
      (blanks ≠ 0 → later = []) := by
  induction lines generalizing j with
  | nil => exact ⟨[], j.awaited, 0, rfl, rfl, rfl, fun h => absurd rfl h⟩
  | cons line rest ih =>
      rcases hear_cases j line with
        ⟨later, hawaited, hheard⟩ | ⟨hawaited, rfl, hheard⟩ |
          ⟨failure, hheard, -⟩
      · -- counted: it stands before what comes of the lines still awaited
        obtain ⟨came, later', blanks, hsplit, hlast, hpassing, hblanks⟩ :=
          ih (j.after 1)
        rw [awaited_after, hawaited] at hsplit
        refine ⟨line :: came, later', blanks, ?_, ?_, ?_, hblanks⟩
        · rw [hawaited, List.cons_append]
          exact congrArg (line :: ·) hsplit
        · rw [afterAll_cons, hheard, hlast, after_after, List.length_cons,
            Nat.add_comm]
        · rw [passing_cons_of_ok hheard, hpassing, List.cons_append]
      · -- blank: nothing is awaited, so nothing but blanks can pass
        obtain ⟨came, later', blanks, hsplit, hlast, hpassing, -⟩ := ih j
        rw [hawaited, List.nil_eq, List.append_eq_nil_iff] at hsplit
        obtain ⟨rfl, rfl⟩ := hsplit
        refine ⟨[], [], blanks + 1, hawaited, ?_, ?_, fun _ => rfl⟩
        · rw [afterAll_cons, hheard, hlast]
        · rw [passing_cons_of_ok hheard, hpassing]
          rfl
      · obtain ⟨came, later', blanks, hsplit, hlast, hpassing, hblanks⟩ := ih j
        refine ⟨came, later', blanks, hsplit, ?_, ?_, hblanks⟩
        · rw [afterAll_cons, hheard, hlast]
        · rw [passing_cons_of_error hheard, hpassing]

/-! ## The same without the failures -/

theorem history_passing (j : Judge) (lines : List String) :
    j.history (j.passing lines) = (j.history lines).filter (·.1.isOk) := by
  induction lines generalizing j with
  | nil => rfl
  | cons line rest ih =>
      rcases hheard : j.hear line with ⟨heard, next⟩
      cases heard with
      | ok =>
          rw [passing_cons_of_ok hheard, history_cons, history_cons, hheard, ih,
            List.filter_cons_of_pos rfl]
      | error failure =>
          obtain rfl := eq_of_hear_error hheard
          rw [passing_cons_of_error hheard, history_cons, hheard, ih,
            List.filter_cons_of_neg Bool.false_ne_true]

theorem afterAll_passing (j : Judge) (lines : List String) :
    j.afterAll (j.passing lines) = j.afterAll lines := by
  induction lines generalizing j with
  | nil => rfl
  | cons line rest ih =>
      rcases hheard : j.hear line with ⟨heard, next⟩
      cases heard with
      | ok =>
          rw [passing_cons_of_ok hheard, afterAll_cons, afterAll_cons, hheard, ih]
      | error failure =>
          obtain rfl := eq_of_hear_error hheard
          rw [passing_cons_of_error hheard, afterAll_cons, hheard, ih]

/-! ## How many lines have come -/

/-- No more lines come than are expected, and none goes away again. -/
theorem matched_afterAll {j : Judge} (h : j.matched ≤ j.order.size)
    (lines : List String) :
    j.matched ≤ (j.afterAll lines).matched ∧
      (j.afterAll lines).matched ≤ j.order.size := by
  obtain ⟨came, later, -, hsplit, hlast, -, -⟩ := j.exists_passing lines
  have hlength := congrArg List.length hsplit
  rw [awaited, List.length_drop, Order.length_expected, List.length_append]
    at hlength
  rw [hlast]
  show j.matched ≤ j.matched + came.length ∧
    j.matched + came.length ≤ j.order.size
  omega

theorem order_afterAll (j : Judge) (lines : List String) :
    (j.afterAll lines).order = j.order := by
  obtain ⟨came, -, -, -, hlast, -, -⟩ := j.exists_passing lines
  rw [hlast]
  rfl

theorem close_eq_ok_iff {j : Judge} (h : j.matched ≤ j.order.size) :
    j.close = .ok () ↔ j.matched = j.order.size := by
  unfold close
  split
  · next hlt => simp [Nat.ne_of_lt hlt]
  · next hge => simp [Nat.le_antisymm h (Nat.not_lt.mp hge)]

theorem close_of_ne {j : Judge} (h : j.matched ≤ j.order.size)
    (hne : j.matched ≠ j.order.size) :
    j.close = .error (.missingLines j.order.size j.matched) := by
  rw [close, if_pos (Nat.lt_of_le_of_ne h hne)]

/-- From the start of an order, the lines that are counted are its first. -/
theorem exists_passing_of_fresh (o : Order) (g : Greeting)
    (lines : List String) :
    let fresh : Judge := ⟨o, g, 0⟩
    let last := fresh.afterAll lines
    ∃ blanks, fresh.passing lines = (o.expected g).take last.matched ++
        List.replicate blanks "" ∧
      (blanks ≠ 0 → last.matched = o.size) := by
  intro fresh last
  obtain ⟨came, later, blanks, hsplit, hlast, hpassing, hblanks⟩ :=
    fresh.exists_passing lines
  have hmatched : last.matched = came.length := by
    show (fresh.afterAll lines).matched = came.length
    rw [hlast]
    exact Nat.zero_add _
  have hexpected : o.expected g = came ++ later := hsplit
  refine ⟨blanks, ?_, ?_⟩
  · rw [hmatched, hexpected, List.take_left]
    exact hpassing
  · intro hne
    rw [hmatched, Order.size_of_expected hexpected, hblanks hne]
    rfl

/-- **Failures leave no trace.** Let one judge hear any lines, failures or not.
Each line moves the count forward or not at all, never past the number of names,
and not at all if it fails. Without the lines that fail, the others would have
fared the same, and the judge would have ended up with the same count and the
same verdict. What passed are the lines expected, as many as are counted, and
then blank ones, if all of them have come; and only if all have come is the
judge content in the end. -/
theorem history_without_failures (o : Order) (g : Greeting)
    (lines : List String) :
    let fresh : Judge := ⟨o, g, 0⟩
    let last := fresh.afterAll lines
    let kept := fresh.passing lines
    (∀ before line after, lines = before ++ line :: after →
      let j := fresh.afterAll before
      (fresh.history lines)[before.length]? = some (j.hear line) ∧
        j.matched ≤ (j.hear line).2.matched ∧
        (j.hear line).2.matched ≤ o.size ∧
        ∀ failure, (j.hear line).1 = .error failure →
          (j.hear line).2.matched = j.matched) ∧
      (fresh.history kept = (fresh.history lines).filter (·.1.isOk) ∧
        (fresh.afterAll kept).matched = last.matched ∧
        (fresh.afterAll kept).close = last.close) ∧
      (∃ blanks, kept = (o.expected g).take last.matched ++
          List.replicate blanks "" ∧
        (blanks ≠ 0 → last.matched = o.size)) ∧
      (last.close = .ok () ↔ last.matched = o.size) ∧
      (last.matched ≠ o.size →
        last.close = .error (.missingLines o.size last.matched)) := by
  intro fresh last kept
  have hbound : last.matched ≤ o.size :=
    (matched_afterAll (Nat.zero_le _) lines).2
  have horder : last.order = o := order_afterAll fresh lines
  refine ⟨?_, ⟨?_, ?_, ?_⟩, ?_, ?_, ?_⟩
  · rintro before line after rfl
    intro j
    have hj : j.matched ≤ j.order.size := by
      rw [order_afterAll]
      exact (matched_afterAll (Nat.zero_le _) before).2
    obtain ⟨hmono, hle⟩ := matched_afterAll hj [line]
    refine ⟨getElem?_history fresh before line after, hmono, ?_, ?_⟩
    · rwa [order_afterAll] at hle
    · intro failure hfailure
      exact congrArg matched (eq_of_hear_error (Prod.ext hfailure rfl))
  · exact history_passing fresh lines
  · rw [afterAll_passing]
  · rw [afterAll_passing]
  · exact exists_passing_of_fresh o g lines
  · rw [close_eq_ok_iff (by rwa [horder]), horder]
  · intro hne
    rw [close_of_ne (by rwa [horder]) (by rwa [horder]), horder]

example :
    (Judge.mk ⟨["Ann", "Bob"]⟩ ⟨"", ""⟩ 0).passing
      ["", "Ann", "Ann", "Bob", "", "Cid"] = ["Ann", "Bob", ""] := by decide

end Judge

end RollCall

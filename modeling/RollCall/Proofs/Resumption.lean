import RollCall.Proofs.Lines
import RollCall.Proofs.Marking

/-!
# Answers in parts

An answer may be cut after any line feed and given to a judge part by part.
Cutting lines is blind to such a cut (`split_append`), and a scan goes on where
it stopped (`scan_resume`), so the judge who hears the parts one after another
gives the verdict on the whole (`mark_append`). A verdict that names a line is
therefore final; one that misses lines is not, and the rest of the answer is
then marked against the rest of the order.
-/

namespace RollCall

/-! ## Cuts after a line feed -/

namespace Lines

variable {α : Type} [DecidableEq α] {lf cr : α}

/-- A cut after a line feed is a cut between lines, also where the next part
starts with a line feed or a carriage return. -/
theorem split_append {xs : List α} (hxs : xs = [] ∨ xs.getLast? = some lf)
    (ys : List α) :
    split lf cr (xs ++ ys) = split lf cr xs ++ split lf cr ys := by
  induction xs using lines_induction lf with
  | nil => rfl
  | last l hne hlf =>
      rcases hxs with rfl | hlast
      · exact absurd rfl hne
      · exact absurd (List.mem_of_getLast? hlast) hlf
  | line l r hlf ih =>
      have hr : r = [] ∨ r.getLast? = some lf := by
        rcases hxs with hnil | hlast
        · exact absurd hnil (by simp)
        · by_cases hr : r = []
          · exact Or.inl hr
          · right
            rwa [List.getLast?_append_of_ne_nil _ (List.cons_ne_nil lf r),
              List.getLast?_cons_of_ne_nil hr] at hlast
      rw [List.append_assoc, List.cons_append, split_append_cons hlf,
        split_append_cons hlf, ih hr, List.cons_append]

/-- The text is empty, or ends with a line feed. -/
def Closed (text : String) : Prop :=
  text = "" ∨ text.toList.getLast? = some '\n'

theorem ofText_append {t : String} (ht : Closed t) (u : String) :
    ofText (t ++ u) = ofText t ++ ofText u := by
  have hlist : t.toList = [] ∨ t.toList.getLast? = some '\n' := by
    rcases ht with rfl | hlast
    · exact Or.inl rfl
    · exact Or.inr hlast
  simp only [ofText, String.toList_append, split_append hlist, List.map_append]

end Lines

/-! ## A judge that goes on -/

namespace Judge

theorem scan_resume (j : Judge) (first second : List String) :
    j.scan (first ++ second) =
      match j.scan first with
      | (.ok (), next) => next.scan second
      | (.error failure, next) => (.error failure, next) := by
  induction first generalizing j with
  | nil => rfl
  | cons line first ih =>
      rw [List.cons_append, scan, scan]
      obtain ⟨heard, next⟩ := j.hear line
      cases heard with
      | ok => exact ih next
      | error failure => rfl

/-- The verdict on lines that come in parts, all to one judge: the first line
that fails decides, or else how many have come by the end. -/
def hearParts (j : Judge) : List (List String) → Verdict
  | [] => j.close
  | part :: later =>
    match j.scan part with
    | (.ok (), next) => next.hearParts later
    | (.error failure, _) => .error failure

/-- Cuts between lines do not matter, however many there are. -/
theorem hearParts_eq (j : Judge) (parts : List (List String)) :
    j.hearParts parts = (j.conclude parts.flatten).1 := by
  induction parts generalizing j with
  | nil => rfl
  | cons part later ih =>
      rw [hearParts, List.flatten_cons, conclude, scan_resume]
      obtain ⟨heard, next⟩ := j.scan part
      cases heard with
      | ok => exact ih next
      | error failure => rfl

end Judge

/-! ## What a later part may change -/

/-- A failure found from place `m` of an order on, as the whole order of `n`
names counts. -/
def Failure.countedFrom (m n : ℕ) : Failure → Failure
  | .mismatch number expected actual => .mismatch (number + m) expected actual
  | .missingLines _ got => .missingLines n (got + m)
  | failure => failure

/-- What is left of an order after its first `m` names. -/
def Order.drop (o : Order) (m : ℕ) : Order :=
  ⟨o.names.drop m⟩

theorem Order.expected_drop (o : Order) (g : Greeting) (m : ℕ) :
    (o.drop m).expected g = (o.expected g).drop m := by
  simp [drop, expected]

/-- Lines that came before only move the numbers. -/
theorem Judge.verdictAfter_add (m count : ℕ) (later rest : List String) :
    verdictAfter (m + count) later rest =
      (verdictAfter count later rest).mapError
        (Failure.countedFrom m (m + count + later.length)) := by
  cases later with
  | nil =>
      rcases verdictAfter_nil count rest with h | h
      · rw [h, verdictAfter_eq_ok_iff.mpr (verdictAfter_eq_ok_iff.mp h)]
        rfl
      · rw [h, verdictAfter_eq_surplus_iff.mpr
          (verdictAfter_eq_surplus_iff.mp h)]
        rfl
  | cons e later =>
      cases rest with
      | nil =>
          simp [verdictAfter, Except.mapError, Failure.countedFrom,
            Nat.add_comm m]
      | cons line rest =>
          simp only [verdictAfter, Except.mapError, Failure.countedFrom]
          congr 2
          omega

namespace Order

variable {o : Order} {g : Greeting} {t : String}

theorem mark_eq_hearParts (o : Order) (g : Greeting) (text : String) :
    o.mark g text = (Judge.mk o g 0).hearParts [Lines.ofText text] := by
  rw [Judge.hearParts_eq, List.flatten_singleton]
  rfl

theorem mark_append_eq_hearParts (o : Order) (g : Greeting)
    (ht : Lines.Closed t) (u : String) :
    o.mark g (t ++ u) =
      (Judge.mk o g 0).hearParts [Lines.ofText t, Lines.ofText u] := by
  rw [mark, examine, Lines.ofText_append ht, Judge.hearParts_eq]
  simp

/-- A line that failed has failed, whatever comes after it. -/
theorem mark_append_of_error {failure : Failure} (ht : Lines.Closed t)
    (h : o.mark g t = .error failure)
    (hline : ∀ n m, failure ≠ .missingLines n m) (u : String) :
    o.mark g (t ++ u) = .error failure := by
  rw [mark_eq_hearParts, Judge.hearParts] at h
  rw [mark_append_eq_hearParts o g ht, Judge.hearParts]
  generalize (Judge.mk o g 0).scan (Lines.ofText t) = scanned at h ⊢
  obtain ⟨heard, next⟩ := scanned
  cases heard with
  | ok =>
      -- no line failed, so only the end can have, and it names none
      simp only [Judge.hearParts, Judge.close] at h
      split at h
      · cases h
        exact absurd rfl (hline _ _)
      · cases h
  | error failure => exact h

/-- After all lines expected have come, only blank lines may follow. -/
theorem mark_append_of_ok (ht : Lines.Closed t) (h : o.mark g t = .ok ())
    (u : String) :
    o.mark g (t ++ u) = if ∀ line ∈ Lines.ofText u, line = "" then .ok ()
      else .error .surplusLine := by
  obtain ⟨count, hlines⟩ := mark_eq_ok_iff.mp h
  have happend : Lines.ofText (t ++ u) =
      o.expected g ++ (List.replicate count "" ++ Lines.ofText u) := by
    rw [Lines.ofText_append ht, hlines, List.append_assoc]
  have hblank :
      (∀ line ∈ List.replicate count "" ++ Lines.ofText u, line = "") ↔
        ∀ line ∈ Lines.ofText u, line = "" := by
    rw [List.forall_mem_append, and_iff_right]
    intro line hline
    exact List.eq_of_mem_replicate hline
  have hexpected : o.expected g = o.expected g ++ [] := by simp
  rw [mark_of_split hexpected happend (by simp [StartApart]),
    Judge.verdictAfter]
  simp only [hblank]

/-- Lines that are still missing may come, and are marked as an answer of their
own to the rest of the order. -/
theorem mark_append_of_missing {n m : ℕ} (ht : Lines.Closed t)
    (h : o.mark g t = .error (.missingLines n m)) (u : String) :
    n = o.size ∧ m < n ∧ o.mark g (t ++ u) =
      ((o.drop m).mark g u).mapError (Failure.countedFrom m n) := by
  obtain ⟨common, rest, later, hlines, hexpected, hfirst⟩ :=
    exists_common (Lines.ofText t) (o.expected g)
  rw [mark_of_split hexpected hlines hfirst,
    Judge.verdictAfter_eq_missing_iff] at h
  obtain ⟨hlater, rfl, rfl, rfl⟩ := h
  have hsize := size_of_expected hexpected
  refine ⟨hsize.symm, ?_, ?_⟩
  · have hpos := List.length_pos_iff.mpr hlater
    omega
  · -- where the rest of the answer leaves the rest of the order
    obtain ⟨more, rest, later, hu, rfl, happart⟩ :=
      exists_common (Lines.ofText u) later
    have hwhole : o.expected g = (common ++ more) ++ later := by
      rw [hexpected, List.append_assoc]
    have happend : Lines.ofText (t ++ u) = (common ++ more) ++ rest := by
      rw [Lines.ofText_append ht, hlines, hu, List.append_nil,
        List.append_assoc]
    have hdrop : (o.drop common.length).expected g = more ++ later := by
      rw [expected_drop, hexpected, List.drop_left]
    rw [mark_of_split hwhole happend happart, mark_of_split hdrop hu happart,
      List.length_append, List.length_append, ← Nat.add_assoc,
      Judge.verdictAfter_add]

/-- **An answer may be cut after any line feed.** The verdict on two parts is
that of one judge who hears the first and then the second. So a verdict on the
first that names a line is the verdict on both; one that accepts leaves room for
nothing but blank lines; and one that misses lines leaves the second part to be
marked against the rest of the order, with its numbers moved. -/
theorem mark_append (o : Order) (g : Greeting) (t : String)
    (ht : t = "" ∨ t.toList.getLast? = some '\n') (u : String) :
    o.mark g (t ++ u) =
        (Judge.mk o g 0).hearParts [Lines.ofText t, Lines.ofText u] ∧
      (∀ number expected actual,
        o.mark g t = .error (.mismatch number expected actual) →
          o.mark g (t ++ u) = .error (.mismatch number expected actual)) ∧
      (o.mark g t = .error .surplusLine →
        o.mark g (t ++ u) = .error .surplusLine) ∧
      (o.mark g t = .ok () → o.mark g (t ++ u) =
        if ∀ line ∈ Lines.ofText u, line = "" then .ok ()
        else .error .surplusLine) ∧
      ∀ n m, o.mark g t = .error (.missingLines n m) →
        n = o.size ∧ m < n ∧ o.mark g (t ++ u) =
          ((o.drop m).mark g u).mapError (Failure.countedFrom m n) := by
  refine ⟨mark_append_eq_hearParts o g ht u, ?_, ?_, ?_, ?_⟩
  · intro number expected actual h
    exact mark_append_of_error ht h (by simp) u
  · intro h
    exact mark_append_of_error ht h (by simp) u
  · intro h
    exact mark_append_of_ok ht h u
  · intro n m h
    exact mark_append_of_missing ht h u

/-- A first part that ends with both characters, and a second that starts with
one of them. -/
theorem mark_append_stray_return :
    let o : Order := ⟨["Ann", "Bob", "Cid"]⟩
    let t := "Hello, Ann!\r\n"
    let u := "\rHello, Bob!\n"
    (t = "" ∨ t.toList.getLast? = some '\n') ∧
      o.mark Greeting.standard t = .error (.missingLines 3 1) ∧
      o.mark Greeting.standard (t ++ u) =
        .error (.mismatch 2 "Hello, Bob!" "\rHello, Bob!") := by
  intro o t u
  have ht : t = "" ∨ t.toList.getLast? = some '\n' := by decide
  have hmissing : o.mark Greeting.standard t = .error (.missingLines 3 1) := by
    decide
  have hrest : (o.drop 1).mark Greeting.standard u =
      .error (.mismatch 1 "Hello, Bob!" "\rHello, Bob!") := by decide
  obtain ⟨-, -, -, -, happend⟩ := mark_append o Greeting.standard t ht u
  refine ⟨ht, hmissing, ?_⟩
  rw [(happend 3 1 hmissing).2.2, hrest]
  rfl

end Order

end RollCall

import RollCall.Proofs.Lines
import RollCall.Proofs.Marking

/-!
# Either ending will do

A line may end with a line feed, or with a carriage return and a line feed, and
the last one need not end at all. `addReturns` goes over a list and turns the
first ending into the second wherever it is told to; the lines stay as they are
(`split_addReturns`). So they do when a last line without ending is given one
(`split_append_ending`). The verdict is a function of the lines, so it cannot
tell either, whatever it says (`mark_endings`).
-/

namespace RollCall

namespace Lines

variable {α : Type} [DecidableEq α] {lf cr : α}

/-! ## Carriage returns put in -/

/-- A list with a `cr` put before each `lf` whose place is chosen, but for those
that have one directly before them. `before` is what the list comes after. -/
def addReturns (lf cr : α) (chosen : ℕ → Bool) (before : Option α) :
    List α → List α
  | [] => []
  | x :: xs =>
    let rest := addReturns lf cr (fun i => chosen (i + 1)) (some x) xs
    if x = lf ∧ before ≠ some cr ∧ chosen 0 then cr :: lf :: rest else x :: rest

theorem addReturns_of_notMem {l : List α} (hl : lf ∉ l) (chosen : ℕ → Bool)
    (before : Option α) : addReturns lf cr chosen before l = l := by
  induction l generalizing chosen before with
  | nil => rfl
  | cons x l ih =>
      rw [List.mem_cons, not_or] at hl
      rw [addReturns, if_neg fun h => hl.1 h.1.symm, ih hl.2]

/-- A line is kept, and its line feed decides on its own whether it gets a
carriage return. -/
theorem addReturns_append_cons {l : List α} (hl : lf ∉ l) (r : List α)
    (chosen : ℕ → Bool) (before : Option α) :
    addReturns lf cr chosen before (l ++ lf :: r) =
      l ++ (if l.getLast?.or before ≠ some cr ∧ chosen l.length
          then [cr, lf] else [lf]) ++
        addReturns lf cr (fun i => chosen (i + (l.length + 1))) (some lf) r := by
  induction l generalizing chosen before with
  | nil =>
      rw [List.nil_append, addReturns]
      by_cases h : before ≠ some cr ∧ chosen 0
      · simp [h]
      · simp [h]
  | cons x l ih =>
      rw [List.mem_cons, not_or] at hl
      have hlast : (x :: l).getLast?.or before = l.getLast?.or (some x) := by
        simp [List.getLast?_cons]
      rw [List.cons_append, addReturns, if_neg fun h => hl.1 h.1.symm, ih hl.2,
        hlast]
      simp [Nat.add_assoc]

/-- After a line feed is like at the start: no carriage return stands there. -/
theorem addReturns_after_lf (hne : lf ≠ cr) (chosen : ℕ → Bool) (xs : List α) :
    addReturns lf cr chosen (some lf) xs = addReturns lf cr chosen none xs := by
  cases xs with
  | nil => rfl
  | cons x xs => simp [addReturns, hne]

/-- **Carriage returns may be put in.** Where a line feed has none before it,
one more does not change the lines. -/
theorem split_addReturns (hne : lf ≠ cr) (chosen : ℕ → Bool) (xs : List α) :
    split lf cr (addReturns lf cr chosen none xs) = split lf cr xs := by
  induction xs using lines_induction lf generalizing chosen with
  | nil => rfl
  | last l _ hlf => rw [addReturns_of_notMem hlf]
  | line l r hlf ih =>
      rw [addReturns_append_cons hlf, addReturns_after_lf hne, Option.or_none,
        split_append_cons hlf]
      split
      · next h =>
          -- the line has no carriage return of its own to lose
          rw [split_line hne hlf .pair, ih, dropReturn_of_ne h.1]
      · rw [List.append_assoc, List.singleton_append, split_append_cons hlf, ih]

/-! ## An ending put after the last line -/

/-- **The last line may be ended.** Where the list stops inside a line, an
ending of that line makes no other of it and begins no new one. -/
theorem split_append_ending (hne : lf ≠ cr) {xs t : List α} (hxs : xs ≠ [])
    (hlast : xs.getLast? ≠ some lf) (ht : Ending lf cr xs t) :
    split lf cr (xs ++ t) = split lf cr xs := by
  induction xs using lines_induction lf with
  | nil => exact absurd rfl hxs
  | last l hl hlf =>
      have hline := split_line hne hlf ht []
      rw [List.append_nil] at hline
      rw [hline, split_of_notMem hl hlf]
      rfl
  | line l r hlf ih =>
      have hr : r ≠ [] := by
        rintro rfl
        simp at hlast
      have hsame : r.getLast? = (l ++ lf :: r).getLast? := by
        rw [List.getLast?_append_of_ne_nil _ (List.cons_ne_nil lf r),
          List.getLast?_cons_of_ne_nil hr]
      have htail : Ending lf cr r t := by
        cases ht with
        | lineFeed hcr => exact .lineFeed (hsame ▸ hcr)
        | pair => exact .pair
      rw [List.append_assoc, List.cons_append, split_append_cons hlf,
        split_append_cons hlf, ih hr (hsame ▸ hlast) htail]

/-! ## The lines of a text -/

/-- A text with a carriage return put before each line feed whose place is
chosen, but for those that have one directly before them. -/
def withReturns (chosen : ℕ → Bool) (text : String) : String :=
  String.ofList (addReturns '\n' '\r' chosen none text.toList)

theorem ofText_withReturns (chosen : ℕ → Bool) (text : String) :
    ofText (withReturns chosen text) = ofText text := by
  rw [ofText, withReturns, String.toList_ofList, split_addReturns (by decide),
    ofText]

theorem ofText_append_ending {text ending : String} (htext : text ≠ "")
    (hlf : text.toList.getLast? ≠ some '\n')
    (hcr : text.toList.getLast? ≠ some '\r')
    (hending : ending = "\n" ∨ ending = "\r\n") :
    ofText (text ++ ending) = ofText text := by
  have ht : Ending '\n' '\r' text.toList ending.toList := by
    rcases hending with rfl | rfl
    · exact .lineFeed hcr
    · exact .pair
  rw [ofText, String.toList_append,
    split_append_ending (by decide) (by simpa using htext) hlf ht, ofText]

end Lines

namespace Order

theorem mark_congr {t u : String} (h : Lines.ofText t = Lines.ofText u)
    (o : Order) (g : Greeting) : o.mark g t = o.mark g u := by
  rw [mark, mark, examine, examine, h]

/-- **The verdict does not tell the endings apart.** Put a carriage return
before any of the line feeds that have none, or end a last line that has no
ending and does not stop with a carriage return: the verdict stays the same,
with all that it says. -/
theorem mark_endings (o : Order) (g : Greeting) (text : String) :
    (∀ chosen : ℕ → Bool,
        o.mark g (Lines.withReturns chosen text) = o.mark g text) ∧
      (text ≠ "" → text.toList.getLast? ≠ some '\n' →
        text.toList.getLast? ≠ some '\r' →
        o.mark g (text ++ "\n") = o.mark g text ∧
          o.mark g (text ++ "\r\n") = o.mark g text) := by
  refine ⟨fun chosen => mark_congr (Lines.ofText_withReturns chosen text) o g,
    fun htext hlf hcr => ⟨?_, ?_⟩⟩
  · exact mark_congr (Lines.ofText_append_ending htext hlf hcr (Or.inl rfl)) o g
  · exact mark_congr (Lines.ofText_append_ending htext hlf hcr (Or.inr rfl)) o g

/-- A line that is not the one expected, after a line feed that has its carriage
return and one that has not; the second is given one, and the last line is
ended. -/
theorem mark_endings_mixed :
    let o : Order := ⟨["Ann", "", "Bob"]⟩
    let g : Greeting := ⟨"", ""⟩
    let text := "Ann\r\n\nBob\r!"
    (text ≠ "" ∧ text.toList.getLast? ≠ some '\n' ∧
        text.toList.getLast? ≠ some '\r') ∧
      Lines.withReturns (fun _ => true) text = "Ann\r\n\r\nBob\r!" ∧
      o.mark g "Ann\r\n\r\nBob\r!" = .error (.mismatch 3 "Bob" "Bob\r!") ∧
      o.mark g (text ++ "\r\n") = .error (.mismatch 3 "Bob" "Bob\r!") := by
  intro o g text
  have htext : text ≠ "" ∧ text.toList.getLast? ≠ some '\n' ∧
      text.toList.getLast? ≠ some '\r' := by decide
  have hreturns : Lines.withReturns (fun _ => true) text =
      "Ann\r\n\r\nBob\r!" := by decide
  have hmark : o.mark g text = .error (.mismatch 3 "Bob" "Bob\r!") := by decide
  obtain ⟨hchosen, hended⟩ := mark_endings o g text
  refine ⟨htext, hreturns, ?_, ?_⟩
  · rw [← hreturns, hchosen, hmark]
  · rw [(hended htext.1 htext.2.1 htext.2.2).2, hmark]

end Order

end RollCall

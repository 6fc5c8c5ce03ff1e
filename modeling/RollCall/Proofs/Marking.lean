import Mathlib.Order.Bounds.Basic
import RollCall.Judge

/-!
# What a verdict depends on

A judge compares one line at a time. Seen as a whole, the lines of an answer
and the lines expected run along together as far as they agree, and the verdict
is read off what is left of either where they part: `mark_of_split`. The run
behind it is `scan_append`, whose invariant is the list of the lines that are
still awaited.
-/

namespace RollCall

/-! ## Where two lists part -/

section Parting

variable {α : Type}

/-- Two lists that do not start with the same element. -/
def StartApart (xs ys : List α) : Prop :=
  ∀ x ∈ xs.head?, x ∉ ys.head?

/-- Any two lists run along together up to where they part. -/
theorem exists_common [DecidableEq α] (xs ys : List α) :
    ∃ common xs' ys', xs = common ++ xs' ∧ ys = common ++ ys' ∧
      StartApart xs' ys' := by
  induction xs generalizing ys with
  | nil => exact ⟨[], [], ys, rfl, rfl, by simp [StartApart]⟩
  | cons x xs ih =>
      cases ys with
      | nil => exact ⟨[], x :: xs, [], rfl, rfl, by simp [StartApart]⟩
      | cons y ys =>
          by_cases hxy : x = y
          · subst hxy
            obtain ⟨common, xs', ys', rfl, rfl, happart⟩ := ih ys
            exact ⟨x :: common, xs', ys', rfl, rfl, happart⟩
          · exact ⟨[], x :: xs, y :: ys, rfl, rfl,
              by simpa [StartApart] using Ne.symm hxy⟩

/-- The part up to there is their longest common prefix. -/
theorem isGreatest_common {common xs ys : List α} (h : StartApart xs ys) :
    IsGreatest {m | ∃ start, start.length = m ∧ start <+: common ++ xs ∧
      start <+: common ++ ys} common.length := by
  constructor
  · exact ⟨common, rfl, List.prefix_append .., List.prefix_append ..⟩
  · rintro m ⟨start, rfl, hx, hy⟩
    by_contra hlt
    have hcommon : common <+: start :=
      List.prefix_of_prefix_length_le (List.prefix_append ..) hx (by omega)
    obtain ⟨more, rfl⟩ := hcommon
    -- one element further on, both lists would start with it
    rw [List.prefix_append_right_inj] at hx hy
    cases more with
    | nil => simp at hlt
    | cons z more =>
        obtain ⟨xs', rfl⟩ := hx
        obtain ⟨ys', rfl⟩ := hy
        exact h z (by simp) (by simp)

end Parting

/-! ## A judge and what it still awaits -/

theorem Order.size_of_expected {o : Order} {g : Greeting}
    {first second : List String} (h : o.expected g = first ++ second) :
    o.size = first.length + second.length := by
  rw [← o.length_expected g, h, List.length_append]

namespace Judge

/-- The lines expected that have not come yet. -/
def awaited (j : Judge) : List String :=
  (j.order.expected j.greeting).drop j.matched

/-- The judge once so many further lines have come as expected. -/
def after (j : Judge) (count : Nat) : Judge :=
  { j with matched := j.matched + count }

theorem after_after (j : Judge) (first second : Nat) :
    (j.after first).after second = j.after (first + second) := by
  simp [after, Nat.add_assoc]

theorem awaited_after (j : Judge) (count : Nat) :
    (j.after count).awaited = j.awaited.drop count := by
  simp [awaited, after, List.drop_drop]

theorem expected?_eq_head? (j : Judge) :
    j.order.expected? j.greeting j.matched = j.awaited.head? := by
  rw [Order.expected?_eq, awaited, List.head?_drop]

theorem hear_of_awaited_nil {j : Judge} (h : j.awaited = []) (line : String) :
    j.hear line = (if line = "" then .ok () else .error .surplusLine, j) := by
  rw [hear, expected?_eq_head?, h]
  rfl

theorem hear_of_awaited_cons {j : Judge} {e : String} {later : List String}
    (h : j.awaited = e :: later) (line : String) :
    j.hear line = if line = e then (.ok (), j.after 1)
      else (.error (.mismatch (j.matched + 1) e line), j) := by
  rw [hear, expected?_eq_head?, h]
  rfl

/-- All that hearing a line can come to. -/
theorem hear_cases (j : Judge) (line : String) :
    (∃ later, j.awaited = line :: later ∧ j.hear line = (.ok (), j.after 1)) ∨
      (j.awaited = [] ∧ line = "" ∧ j.hear line = (.ok (), j)) ∨
      ∃ failure, j.hear line = (.error failure, j) ∧
        ∀ n got, failure ≠ .missingLines n got := by
  cases hawaited : j.awaited with
  | nil =>
      have hheard := hear_of_awaited_nil hawaited line
      by_cases hline : line = ""
      · rw [if_pos hline] at hheard
        exact Or.inr (Or.inl ⟨rfl, hline, hheard⟩)
      · rw [if_neg hline] at hheard
        exact Or.inr (Or.inr ⟨_, hheard, by simp⟩)
  | cons e later =>
      have hheard := hear_of_awaited_cons hawaited line
      by_cases hline : line = e
      · rw [if_pos hline] at hheard
        exact Or.inl ⟨later, by rw [hline], hheard⟩
      · rw [if_neg hline] at hheard
        exact Or.inr (Or.inr ⟨_, hheard, by simp⟩)

theorem scan_cons_of_ok {j next : Judge} {line : String}
    (h : j.hear line = (.ok (), next)) (rest : List String) :
    j.scan (line :: rest) = next.scan rest := by
  rw [scan, h]

theorem scan_cons_of_error {j next : Judge} {line : String} {failure : Failure}
    (h : j.hear line = (.error failure, next)) (rest : List String) :
    j.scan (line :: rest) = (.error failure, next) := by
  rw [scan, h]

/-- Lines that come as awaited are counted, and the scan goes on from there. -/
theorem scan_append {j : Judge} {common later : List String}
    (h : j.awaited = common ++ later) (rest : List String) :
    j.scan (common ++ rest) = (j.after common.length).scan rest := by
  induction common generalizing j with
  | nil => rfl
  | cons e common ih =>
      have hheard : j.hear e = (.ok (), j.after 1) := by
        rw [hear_of_awaited_cons h, if_pos rfl]
      have hnext : (j.after 1).awaited = common ++ later := by
        rw [awaited_after, h]
        rfl
      rw [List.cons_append, scan_cons_of_ok hheard, ih hnext, after_after,
        Nat.add_comm, List.length_cons]

/-- Once nothing is awaited, only empty lines may come. -/
theorem scan_of_awaited_nil {j : Judge} (h : j.awaited = [])
    (lines : List String) :
    j.scan lines = (if ∀ line ∈ lines, line = "" then .ok ()
      else .error .surplusLine, j) := by
  induction lines with
  | nil => simp [scan]
  | cons line rest ih =>
      have hheard := hear_of_awaited_nil h line
      by_cases hline : line = ""
      · rw [if_pos hline] at hheard
        rw [scan_cons_of_ok hheard, ih]
        simp [hline]
      · rw [if_neg hline] at hheard
        rw [scan_cons_of_error hheard]
        simp [hline]

/-- The verdict once lines have come as expected: so many did, `later` are
still awaited, and `rest` is still to come. -/
def verdictAfter (count : Nat) : List String → List String → Verdict
  | [], rest =>
      if ∀ line ∈ rest, line = "" then .ok () else .error .surplusLine
  | _ :: later, [] =>
      .error (.missingLines (count + (later.length + 1)) count)
  | e :: _, line :: _ => .error (.mismatch (count + 1) e line)

section verdictAfter

variable {count : Nat} {later rest : List String}

theorem verdictAfter_nil (count : Nat) (rest : List String) :
    verdictAfter count [] rest = .ok () ∨
      verdictAfter count [] rest = .error .surplusLine := by
  rw [verdictAfter]
  exact ite_eq_or_eq ..

theorem verdictAfter_eq_ok_iff :
    verdictAfter count later rest = .ok () ↔
      later = [] ∧ ∀ line ∈ rest, line = "" := by
  cases later with
  | nil => simp [verdictAfter]
  | cons e later => cases rest <;> simp [verdictAfter]

theorem verdictAfter_eq_surplus_iff :
    verdictAfter count later rest = .error .surplusLine ↔
      later = [] ∧ ∃ line ∈ rest, line ≠ "" := by
  cases later with
  | nil =>
      by_cases hblank : ∀ line ∈ rest, line = ""
      · rw [verdictAfter, if_pos hblank]
        simpa using hblank
      · rw [verdictAfter, if_neg hblank]
        simpa using hblank
  | cons e later => cases rest <;> simp [verdictAfter]

theorem verdictAfter_eq_missing_iff {n got : Nat} :
    verdictAfter count later rest = .error (.missingLines n got) ↔
      later ≠ [] ∧ rest = [] ∧ n = count + later.length ∧ got = count := by
  cases later with
  | nil => rcases verdictAfter_nil count rest with h | h <;> simp [h]
  | cons e later =>
      cases rest with
      | nil => simp [verdictAfter, eq_comm]
      | cons line rest => simp [verdictAfter]

theorem verdictAfter_eq_mismatch_iff {number : Nat} {expected actual : String} :
    verdictAfter count later rest =
        .error (.mismatch number expected actual) ↔
      number = count + 1 ∧ later.head? = some expected ∧
        rest.head? = some actual := by
  cases later with
  | nil => rcases verdictAfter_nil count rest with h | h <;> simp [h]
  | cons e later =>
      cases rest with
      | nil => simp [verdictAfter]
      | cons line rest => simp [verdictAfter, eq_comm]

end verdictAfter

/-- **Where the lines part decides.** Nothing before the place where an answer
leaves the lines expected, and nothing after it but blank lines at the end,
has a say in the verdict. -/
theorem conclude_of_split {o : Order} {g : Greeting}
    {common later rest : List String} (hexpected : o.expected g = common ++ later)
    (happart : StartApart rest later) :
    (conclude ⟨o, g, 0⟩ (common ++ rest)).1 =
      verdictAfter common.length later rest := by
  have hsize := Order.size_of_expected hexpected
  have hawaited : (Judge.mk o g 0).awaited = common ++ later := hexpected
  let j : Judge := ⟨o, g, common.length⟩
  have hj : j.awaited = later := by simp [awaited, j, hexpected]
  have hscan : (Judge.mk o g 0).scan (common ++ rest) = j.scan rest := by
    rw [scan_append hawaited]
    simp [after, j]
  rw [conclude, hscan]
  cases later with
  | nil =>
      -- all lines have come, so what follows can only be blank or surplus
      rw [scan_of_awaited_nil hj, verdictAfter]
      by_cases hblank : ∀ line ∈ rest, line = ""
      · rw [if_pos hblank]
        simp [close, j, hsize]
      · rw [if_neg hblank]
  | cons e later =>
      cases rest with
      | nil => simp [scan, close, verdictAfter, j, hsize]
      | cons line rest =>
          -- the scan stops here, whatever `rest` holds
          have hne : line ≠ e := by simpa [StartApart, eq_comm] using happart
          have hheard : j.hear line =
              (.error (.mismatch (common.length + 1) e line), j) := by
            rw [hear_of_awaited_cons hj, if_neg hne]
          rw [scan_cons_of_error hheard]
          rfl

end Judge

namespace Order

theorem mark_of_split {o : Order} {g : Greeting} {text : String}
    {common later rest : List String} (hexpected : o.expected g = common ++ later)
    (hlines : Lines.ofText text = common ++ rest)
    (happart : StartApart rest later) :
    o.mark g text = Judge.verdictAfter common.length later rest := by
  rw [mark, examine, hlines, Judge.conclude_of_split hexpected happart]

/-- An answer is accepted exactly if its lines are those expected and, after
them, any number of empty ones. -/
theorem mark_eq_ok_iff {o : Order} {g : Greeting} {text : String} :
    o.mark g text = .ok () ↔
      ∃ count, Lines.ofText text =
        o.expected g ++ List.replicate count "" := by
  obtain ⟨common, rest, later, hlines, hexpected, happart⟩ :=
    exists_common (Lines.ofText text) (o.expected g)
  rw [mark_of_split hexpected hlines happart, Judge.verdictAfter_eq_ok_iff,
    hlines, hexpected]
  constructor
  · rintro ⟨rfl, hblank⟩
    exact ⟨rest.length, by simpa [List.eq_replicate_iff] using hblank⟩
  · rintro ⟨count, heq⟩
    rw [List.append_assoc, List.append_cancel_left_eq] at heq
    subst heq
    -- a line left over would be common to both
    cases later with
    | nil => exact ⟨rfl, by simp +contextual [List.mem_replicate]⟩
    | cons e later => simp [StartApart] at happart

/-- **The whole verdict.** Up to line `k` the answer and the lines expected
agree, and no longer. If all lines expected have come by then, the rest decides
between acceptance and a surplus line; else the answer either ends there or
goes on with a line that does not belong there. -/
theorem mark_verdict (o : Order) (g : Greeting) (text : String) :
    let lines := Lines.ofText text
    let expected := o.names.map fun name => g.before ++ name ++ g.after
    ∃ k, IsGreatest {m | ∃ start, start.length = m ∧ start <+: lines ∧
          start <+: expected} k ∧
      (o.mark g text = .ok () ↔
        k = o.size ∧ ∀ line ∈ lines.drop o.size, line = "") ∧
      (o.mark g text = .error .surplusLine ↔
        k = o.size ∧ ∃ line ∈ lines.drop o.size, line ≠ "") ∧
      (∀ n got, o.mark g text = .error (.missingLines n got) ↔
        (n = o.size ∧ got = k) ∧ k = lines.length ∧ k < o.size) ∧
      (∀ number e actual, o.mark g text = .error (.mismatch number e actual) ↔
        (k < o.size ∧ k < lines.length) ∧
          number = k + 1 ∧ expected[k]? = some e ∧ lines[k]? = some actual) := by
  intro lines expected
  obtain ⟨common, rest, later, hlines, hexpected, happart⟩ :=
    exists_common lines expected
  have hsize : o.size = common.length + later.length := by
    rw [← o.length_expected g, ← List.length_append]
    exact congrArg List.length hexpected
  have hmark : o.mark g text = Judge.verdictAfter common.length later rest :=
    mark_of_split hexpected hlines happart
  -- all lines expected have come exactly if none is left
  have hdone : common.length = o.size ↔ later = [] := by
    rw [hsize, ← List.length_eq_zero_iff]
    omega
  rw [hmark, hlines, hexpected]
  refine ⟨common.length, isGreatest_common happart, ?_, ?_, ?_, ?_⟩
  · rw [Judge.verdictAfter_eq_ok_iff, hdone]
    apply and_congr_right
    rintro rfl
    simp [hsize]
  · rw [Judge.verdictAfter_eq_surplus_iff, hdone]
    apply and_congr_right
    rintro rfl
    simp [hsize]
  · intro n got
    rw [Judge.verdictAfter_eq_missing_iff, hsize, ← List.length_pos_iff,
      List.length_append, ← List.length_eq_zero_iff]
    omega
  · intro number e actual
    have hleft : (common ++ later)[common.length]? = later.head? := by
      rw [List.getElem?_append_right le_rfl, Nat.sub_self,
        List.head?_eq_getElem?]
    have hright : (common ++ rest)[common.length]? = rest.head? := by
      rw [List.getElem?_append_right le_rfl, Nat.sub_self,
        List.head?_eq_getElem?]
    rw [Judge.verdictAfter_eq_mismatch_iff, hleft, hright, hsize,
      List.length_append]
    constructor
    · rintro ⟨hnumber, he, hactual⟩
      have hlater := List.length_pos_of_mem (List.mem_of_head? he)
      have hrest := List.length_pos_of_mem (List.mem_of_head? hactual)
      exact ⟨⟨by omega, by omega⟩, hnumber, he, hactual⟩
    · rintro ⟨-, h⟩
      exact h

end Order

end RollCall

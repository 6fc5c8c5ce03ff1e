import RollCall.Proofs.Selection
import RollCall.Proofs.Marking
import RollCall.Session

/-!
# What a session tells

The events of a session are told from three places: where it starts and ends,
where the judge has heard the last line, and where the verdict is known. Put
together they say no more than the verdict itself does (`run_log`): whoever
knows the verdict, what was asked and how many bytes were read can write the
whole log (`Invocation.log`). What makes it so is that only the end of an
answer, and no line of it, is blamed for lines that are missing
(`exists_scan`).
-/

namespace RollCall

/-! ## A log written from the verdict -/

/-- An event as a log shows it. -/
structure Entry where
  level : Level
  part : Part
  message : String
  fields : List (String × String)

def Event.entry (e : Event) : Entry :=
  ⟨e.level, e.part, e.message, e.fields⟩

namespace Verdict

/-- The entry on the end of an answer, where `names` lines are expected. There
is none if a line failed before. -/
def ended (names : ℕ) : Verdict → List Entry
  | .ok () =>
    [⟨.debug, .judge, "input exhausted",
      [("matched", toString names), ("expected", toString names)]⟩]
  | .error (.missingLines _ got) =>
    [⟨.debug, .judge, "input exhausted",
      [("matched", toString got), ("expected", toString names)]⟩]
  | .error _ => []

/-- The last entry on an answer. -/
def closing : Verdict → Entry
  | .ok () => ⟨.info, .session, "candidate output accepted", []⟩
  | .error failure =>
    ⟨.info, .session, "candidate output rejected",
      [("error", failure.message)]⟩

theorem ended_of_ne {failure : Failure}
    (h : ∀ n got, failure ≠ .missingLines n got) (names : ℕ) :
    ended names (.error failure) = [] := by
  cases failure with
  | missingLines n got => exact absurd rfl (h n got)
  | _ => rfl

theorem entry_ofVerdict (verdict : Verdict) :
    (Event.ofVerdict verdict).entry = closing verdict := by
  cases verdict <;> rfl

end Verdict

/-- The log of a session with this verdict, where so many names were ordered
and this was read. -/
def Invocation.log (invocation : Invocation) (names : ℕ) (intake : Intake)
    (verdict : Verdict) : List Entry :=
  ⟨.debug, .session, "resolved invocation",
    [("mode", invocation.mode.name),
      ("seed_hash", invocation.seed.digest.toHex),
      ("seed_u64", toString invocation.seed.digest.lead),
      ("names", toString names)]⟩ ::
  match invocation.mode with
  | .fuzz =>
    match verdict with
    | .ok () =>
      [⟨.info, .session, "wrote fuzz input", [("names", toString names)]⟩]
    | .error _ => []
  | .judge =>
    match intake.failure? with
    | some _ => []
    | none =>
      ⟨.debug, .session, "read candidate output",
        [("bytes", toString intake.bytes.length)]⟩ ::
      verdict.ended names ++ [verdict.closing]

/-! ## What a judge tells -/

/-- A scan counts some of the lines awaited, and no line is blamed for what is
missing after it. -/
theorem Judge.exists_scan (j : Judge) (lines : List String) :
    ∃ verdict count, j.scan lines = (verdict, j.after count) ∧
      count ≤ j.awaited.length ∧
      ∀ n got, verdict ≠ .error (.missingLines n got) := by
  induction lines generalizing j with
  | nil => exact ⟨.ok (), 0, rfl, Nat.zero_le _, by simp⟩
  | cons line rest ih =>
      rcases hear_cases j line with
        ⟨later, hawaited, hheard⟩ | ⟨-, -, hheard⟩ | ⟨failure, hheard, hne⟩
      · obtain ⟨verdict, count, hscan, hcount, hne⟩ := ih (j.after 1)
        refine ⟨verdict, 1 + count, ?_, ?_, hne⟩
        · rw [scan_cons_of_ok hheard, hscan, after_after]
        · rw [awaited_after, hawaited, List.drop_one, List.tail_cons] at hcount
          rw [hawaited, List.length_cons]
          omega
      · obtain ⟨verdict, count, hscan, hcount, hne⟩ := ih j
        exact ⟨verdict, count, by rw [scan_cons_of_ok hheard, hscan], hcount,
          hne⟩
      · exact ⟨.error failure, 0, scan_cons_of_error hheard rest,
          Nat.zero_le _, by simpa using hne⟩

/-- The end of an answer is told exactly as the verdict has it. -/
theorem Order.entries_examine (o : Order) (g : Greeting) (answer : String) :
    (o.examine g answer).2.map Event.entry =
      (o.examine g answer).1.ended o.size := by
  obtain ⟨verdict, count, hscan, hcount, hne⟩ :=
    (Judge.mk o g 0).exists_scan (Lines.ofText answer)
  rw [examine, Judge.conclude, hscan]
  cases verdict with
  | ok =>
      have hsize : count ≤ o.size := by
        rw [← o.length_expected g]
        exact hcount
      have hmatched : ((Judge.mk o g 0).after count).matched = count :=
        Nat.zero_add count
      show [(Event.answerEnded _ o.size).entry] = _
      rw [hmatched]
      by_cases hlt : count < o.size
      · simp only [Judge.close, Judge.after, Nat.zero_add, if_pos hlt]
        rfl
      · obtain rfl : count = o.size := by omega
        simp only [Judge.close, Judge.after, Nat.zero_add, if_neg hlt]
        rfl
  | error failure =>
      have hfailure : ∀ n got, failure ≠ .missingLines n got := by
        rintro n got rfl
        exact hne n got rfl
      rw [Verdict.ended_of_ne hfailure]
      rfl

/-! ## What a session tells -/

namespace Session

theorem entries_pose (order : Order) (output : Sink) :
    (pose order output).events.map Event.entry =
      match (pose order output).verdict with
      | .ok () =>
        [⟨.info, .session, "wrote fuzz input",
          [("names", toString order.size)]⟩]
      | .error _ => [] := by
  unfold pose
  split <;> rfl

theorem entries_assess (order : Order) (greeting : Greeting)
    (input : List Delivery) (output : Sink) :
    let report := assess order greeting input output
    report.events.map Event.entry =
      match (drain input).failure? with
      | some _ => []
      | none =>
        ⟨.debug, .session, "read candidate output",
          [("bytes", toString (drain input).bytes.length)]⟩ ::
        report.verdict.ended order.size ++ [report.verdict.closing] := by
  intro report
  cases hfailure : (drain input).failure? with
  | some text => simp [report, assess, hfailure]
  | none =>
      simp only [report, assess, hfailure, List.map_cons, List.map_append,
        order.entries_examine, List.map_nil, Verdict.entry_ofVerdict]
      rfl

/-- **The log agrees with the verdict.** Whatever a session is asked, and
however its channels behave, it comes to an end, and what it has told is the log
that its verdict writes. -/
theorem run_log (invocation : Invocation) (exercise : Exercise)
    (input : List Delivery) (output : Sink) :
    ∃ report, run invocation exercise input output = .ok report ∧
      report.events.map Event.entry =
        invocation.log exercise.pool.size (drain input) report.verdict := by
  obtain ⟨mode, seed⟩ := invocation
  obtain ⟨order, horder, hperm⟩ := Order.exists_ofSeed seed exercise.pool
  have hsize : order.size = exercise.pool.size := hperm.length_eq
  refine ⟨_, by rw [run, horder], ?_⟩
  cases mode with
  | fuzz =>
      have hentries := entries_pose order output
      rw [hsize] at hentries
      simp only [Invocation.log, List.map_cons, hentries, hsize]
      rfl
  | judge =>
      have hentries := entries_assess order exercise.greeting input output
      rw [hsize] at hentries
      simp only [Invocation.log, List.map_cons, hentries, hsize]
      rfl

end Session

end RollCall

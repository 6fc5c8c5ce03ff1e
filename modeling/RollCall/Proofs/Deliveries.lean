import RollCall.Proofs.Sessions

/-!
# How an answer is delivered

An answer may come in any number of pieces, with interruptions in between, and
reading may fail before its end. What reading brings is said by
`drain_append`, one delivery after another, and of all that a session that
judges sees no more (`run_judge_congr`). So neither the cuts nor the
interruptions matter, and a failure wins over whatever was read before it
(`run_judge_deliveries`).
-/

namespace RollCall

/-! ## What deliveries bring -/

/-- The bytes that a delivery brings. -/
def Delivery.carried : Delivery → List UInt8
  | .bytes piece => piece
  | .interrupted => []
  | .failure _ => []

/-- Deliveries without a failure and without an early end are read to the last
byte, and reading goes on with what comes after them. -/
theorem drain_append {before : List Delivery} (hpieces : .bytes [] ∉ before)
    (hfailure : ∀ text, .failure text ∉ before) (later : List Delivery) :
    drain (before ++ later) =
      ⟨before.flatMap Delivery.carried ++ (drain later).bytes,
        (drain later).failure?⟩ := by
  induction before with
  | nil => rfl
  | cons delivery before ih =>
      rw [List.mem_cons, not_or] at hpieces
      simp only [List.mem_cons, not_or] at hfailure
      have hrest := ih hpieces.2 fun text => (hfailure text).2
      rw [List.cons_append, List.flatMap_cons]
      cases delivery with
      | bytes piece =>
          have hne : piece.isEmpty = false := by
            rw [List.isEmpty_eq_false_iff]
            rintro rfl
            exact hpieces.1 rfl
          simp only [drain, hne, hrest, Delivery.carried, List.append_assoc,
            Bool.false_eq_true, if_false]
      | interrupted => exact hrest
      | failure text => exact absurd rfl (hfailure text).1

theorem drain_of_working {input : List Delivery} (hpieces : .bytes [] ∉ input)
    (hfailure : ∀ text, .failure text ∉ input) :
    drain input = ⟨input.flatMap Delivery.carried, none⟩ := by
  have hdrain := drain_append hpieces hfailure []
  rw [List.append_nil] at hdrain
  rw [hdrain]
  simp [drain]

theorem drain_of_failure {before later : List Delivery} {text : String}
    (hpieces : .bytes [] ∉ before)
    (hfailure : ∀ text, .failure text ∉ before) :
    drain (before ++ .failure text :: later) =
      ⟨before.flatMap Delivery.carried, some text⟩ := by
  rw [drain_append hpieces hfailure]
  simp [drain]

/-! ## What a session makes of them -/

namespace Session

variable {seed : Seed} {exercise : Exercise} {input : List Delivery}

/-- A session that judges sees of its input what reading brings, and nothing
else. -/
theorem run_judge_congr {input' : List Delivery}
    (h : drain input = drain input') (output : Sink) :
    run ⟨.judge, seed⟩ exercise input output =
      run ⟨.judge, seed⟩ exercise input' output := by
  simp only [run, assess, h]

theorem assess_output (order : Order) (greeting : Greeting)
    (input : List Delivery) (output : Sink) :
    (assess order greeting input output).output = output := by
  cases h : (drain input).failure? <;> simp [assess, h]

/-- A session that judges writes nothing. -/
theorem output_of_run_judge {output : Sink} {report : Report}
    (h : run ⟨.judge, seed⟩ exercise input output = .ok report) :
    report.output = output := by
  unfold run at h
  split at h
  · cases h
  · cases h
    exact assess_output _ _ _ _

theorem assess_consumed (order : Order) (greeting : Greeting)
    (input : List Delivery) (output : Sink) :
    (assess order greeting input output).consumed =
      (drain input).bytes.length := by
  cases h : (drain input).failure? <;> simp [assess, h]

/-- Nothing is said of an answer that could not be read to its end. -/
theorem assess_of_failure {raw : List UInt8} {text : String}
    (h : drain input = ⟨raw, some text⟩) (order : Order) (greeting : Greeting)
    (output : Sink) :
    assess order greeting input output =
      ⟨.error (.channel text), output, raw.length, []⟩ := by
  simp only [assess, h]

/-- **Delivery does not matter, but failure does.** With no failure among the
deliveries, all bytes are consumed, and the report is that on the same bytes in
one piece. With one, the first of them is the verdict, whatever the bytes
before it are; those bytes are consumed, and no event tells of an answer. The
output stays as it was. -/
theorem run_judge_deliveries (seed : Seed) (exercise : Exercise)
    (hpieces : .bytes [] ∉ input) (output : Sink) :
    ∃ report, run ⟨.judge, seed⟩ exercise input output = .ok report ∧
      report.output = output ∧
      ((∀ text, .failure text ∉ input) →
        report.consumed = (input.flatMap Delivery.carried).length ∧
        run ⟨.judge, seed⟩ exercise
          [.bytes (input.flatMap Delivery.carried)] output = .ok report) ∧
      ∀ before text later, input = before ++ .failure text :: later →
        (∀ text, .failure text ∉ before) →
        report.verdict = .error (.channel text) ∧
          report.consumed = (before.flatMap Delivery.carried).length ∧
          report.events =
            [.resolved .judge seed.digest exercise.pool.size] := by
  obtain ⟨order, horder, hperm⟩ := Order.exists_ofSeed seed exercise.pool
  refine ⟨_, by rw [run, horder], ?_, ?_, ?_⟩
  · exact assess_output order exercise.greeting input output
  · intro hfailure
    have hdrain := drain_of_working hpieces hfailure
    constructor
    · simp only [assess_consumed, hdrain]
    · rw [run_judge_congr ((drain_bytes _).trans hdrain.symm), run, horder]
  · rintro before text later rfl hfailure
    have hbefore : .bytes [] ∉ before := fun hmem =>
      hpieces (List.mem_append_left _ hmem)
    have hsize : order.size = exercise.pool.size := hperm.length_eq
    simp [assess_of_failure (drain_of_failure hbefore hfailure), hsize]

/-- A character and a line end, both cut in two, and a failure among other
pieces. -/
theorem run_judge_deliveries_cut :
    let cut : List Delivery :=
      [.bytes [0xE2, 0x82], .interrupted, .bytes [0xAC, 0x0D], .bytes [0x0A]]
    let broken : List Delivery :=
      [.bytes [0xE2, 0x82], .interrupted, .failure "broken pipe",
        .bytes [0xAC], .failure "again"]
    (.bytes [] ∉ cut ∧ .bytes [] ∉ broken) ∧
      (∃ report, run ⟨.judge, ⟨"alpha"⟩⟩ Exercise.standard cut {} =
          .ok report ∧
        report.consumed = 5 ∧
        run ⟨.judge, ⟨"alpha"⟩⟩ Exercise.standard
          [.bytes [0xE2, 0x82, 0xAC, 0x0D, 0x0A]] {} = .ok report) ∧
      ∃ report, run ⟨.judge, ⟨"alpha"⟩⟩ Exercise.standard broken {} =
          .ok report ∧
        report.verdict = .error (.channel "broken pipe") ∧
        report.consumed = 2 := by
  intro cut broken
  have hcut : .bytes [] ∉ cut := by simp [cut]
  have hbroken : .bytes [] ∉ broken := by simp [broken]
  refine ⟨⟨hcut, hbroken⟩, ?_, ?_⟩
  · obtain ⟨report, hrun, -, hworking, -⟩ :=
      run_judge_deliveries ⟨"alpha"⟩ Exercise.standard hcut {}
    obtain ⟨hconsumed, hwhole⟩ := hworking (by simp [cut])
    exact ⟨report, hrun, hconsumed, hwhole⟩
  · obtain ⟨report, hrun, -, -, hfails⟩ :=
      run_judge_deliveries ⟨"alpha"⟩ Exercise.standard hbroken {}
    obtain ⟨hverdict, hconsumed, -⟩ :=
      hfails [.bytes [0xE2, 0x82], .interrupted] _ _ rfl (by simp)
    exact ⟨report, hrun, hverdict, hconsumed⟩

end Session

end RollCall

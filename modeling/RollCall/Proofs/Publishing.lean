import RollCall.Proofs.Sessions

/-!
# Names on a sink that may fail

A session that writes gives its sink a line for each name, and the room may end
anywhere: inside a name, inside a character, before a line feed. Bytes may be
cut into writes in any way (`write_append`), so the lines may as well be written
at once (`writeEach_eq_write`), and only two things matter: whether there is
room for all the bytes, and whether the flush works. With room, all of them
arrive and one flush follows (`publish_of_fits`); without, as many arrive as
there is room for, and no flush is tried (`publish_of_room_lt`).
-/

namespace RollCall

/-! ## What reaches the sink -/

namespace Sink

/-- How many of so many bytes there is room for. -/
def roomFor (s : Sink) (count : ℕ) : ℕ :=
  s.room.elim count (min · count)

theorem roomFor_of_fits {s : Sink} {count : ℕ} (h : s.Fits count) :
    s.roomFor count = count := by
  unfold roomFor
  cases hroom : s.room with
  | none => rfl
  | some room => exact Nat.min_eq_right (h room hroom)

theorem roomFor_of_room_lt {s : Sink} {count room : ℕ}
    (hroom : s.room = some room) (hlt : room < count) :
    s.roomFor count = room := by
  rw [roomFor, hroom]
  exact Nat.min_eq_left hlt.le

theorem not_fits_iff {s : Sink} {count : ℕ} :
    ¬ s.Fits count ↔ ∃ room, s.room = some room ∧ room < count := by
  simp [Fits]

theorem write_of_room_lt {s : Sink} {bytes : List UInt8} {room : ℕ}
    (hroom : s.room = some room) (hlt : room < bytes.length) :
    s.write bytes =
      (.error (s.writeFailure?.getD noRoom), s.accept (bytes.take room)) := by
  simp only [write, hroom, if_neg (Nat.not_le.mpr hlt)]

end Sink

theorem Order.publish_of_room_lt {o : Order} {output : Sink} {room : ℕ}
    (hroom : output.room = some room)
    (hlt : room < o.nameLines.flatten.length) :
    o.publish output = (.error (output.writeFailure?.getD Sink.noRoom),
      output.accept (o.nameLines.flatten.take room)) := by
  rw [publish, Sink.writeEach_eq_write, Sink.write_of_room_lt hroom hlt]

/-! ## What the session makes of it -/

namespace Session

variable {order : Order} {output : Sink}

theorem pose_of_fits (h : output.Fits order.nameLines.flatten.length) :
    (pose order output).verdict = (match output.flushFailure? with
        | none => .ok ()
        | some text => .error (.channel text)) ∧
      (pose order output).output =
        (output.accept order.nameLines.flatten).flush.2 := by
  have hpublish := Order.publish_of_fits h
  cases hflush : output.flushFailure? <;>
    simp [pose, hpublish, Sink.flush, Sink.accept, hflush]

theorem pose_of_room_lt {room : ℕ} (hroom : output.room = some room)
    (hlt : room < order.nameLines.flatten.length) :
    (pose order output).verdict = .error (.channel
        (output.writeFailure?.getD Sink.noRoom)) ∧
      (pose order output).output =
        output.accept (order.nameLines.flatten.take room) := by
  simp [pose, Order.publish_of_room_lt hroom hlt]

theorem pose_consumed (order : Order) (output : Sink) :
    (pose order output).consumed = 0 := by
  unfold pose
  split <;> rfl

/-- **What a failing sink is left with.** Of the lines, as many bytes reach the
sink as it has room for. With room for all of them one flush follows, and
decides the verdict; else the write that found no room does, and nothing is
flushed. The input is not read, and neither it nor the greeting has a say in
any of this. -/
theorem run_fuzz_on_sink (seed : Seed) (exercise : Exercise) (output : Sink) :
    ∃ order report, Order.ofSeed seed exercise.pool = .ok order ∧
      (∀ (greeting : Greeting) (input : List Delivery),
        run ⟨.fuzz, seed⟩ (exercise.withGreeting greeting) input output =
          .ok report) ∧
      report.consumed = 0 ∧
      let full := order.names.flatMap fun name => Utf8.encode name ++ [0x0A]
      report.output.received.toList =
          output.received.toList ++ full.take (output.roomFor full.length) ∧
        (output.Fits full.length → ∃ written,
          output.writeEach order.nameLines = (.ok (), written) ∧
            written.received.toList = output.received.toList ++ full ∧
            report.output = written.flush.2 ∧
            report.output.flushes = output.flushes + 1) ∧
        (¬ output.Fits full.length →
          report.output.flushes = output.flushes ∧
            report.verdict = .error (.channel (output.writeFailure?.getD
              "failed to write whole buffer"))) ∧
        (report.verdict = .ok () ↔
          output.Fits full.length ∧ output.flushFailure? = none) ∧
        ∀ text, output.Fits full.length → output.flushFailure? = some text →
          report.verdict = .error (.channel text) := by
  obtain ⟨order, horder, -⟩ := Order.exists_ofSeed seed exercise.pool
  let posed := pose order output
  let resolved := Event.resolved .fuzz seed.digest order.size
  refine ⟨order, { posed with events := resolved :: posed.events }, horder,
    fun greeting input => by rw [run, Exercise.withGreeting, horder],
    pose_consumed order output, ?_⟩
  intro full
  by_cases hfits : output.Fits full.length
  · obtain ⟨hverdict, hsink⟩ := pose_of_fits hfits
    have hwritten : output.writeEach order.nameLines =
        (.ok (), output.accept full) := by
      rw [Sink.writeEach_eq_write]
      exact Sink.write_of_fits hfits
    have hreceived := output.toList_received_accept full
    refine ⟨?_, fun _ => ⟨_, hwritten, hreceived, hsink, ?_⟩,
      fun hno => absurd hfits hno, ?_, ?_⟩
    · rw [Sink.roomFor_of_fits hfits, List.take_length, ← hreceived]
      exact congrArg (·.received.toList) hsink
    · exact congrArg Sink.flushes hsink
    · rw [and_iff_right hfits]
      simp only [posed, hverdict]
      cases output.flushFailure? <;> simp
    · intro text _ hflush
      simp only [posed, hverdict, hflush]
  · obtain ⟨room, hroom, hlt⟩ := Sink.not_fits_iff.mp hfits
    obtain ⟨hverdict, hsink⟩ := pose_of_room_lt hroom hlt
    refine ⟨?_, fun h => absurd h hfits, fun _ => ⟨?_, hverdict⟩, ?_,
      fun _ h => absurd h hfits⟩
    · rw [Sink.roomFor_of_room_lt hroom hlt, ← Sink.toList_received_accept]
      exact congrArg (·.received.toList) hsink
    · show posed.output.flushes = output.flushes
      rw [hsink]
      rfl
    · simp only [posed, hverdict, hfits, false_and, reduceCtorEq]

/-- Room that ends inside a character, and room that ends with the last line
before a flush that fails. -/
theorem run_fuzz_on_sink_cut :
    let exercise : Exercise := ⟨⟨["é"], by decide, by decide⟩, Greeting.standard⟩
    let short : Sink := { room := some 1 }
    let broken : Sink := { room := some 3, flushFailure? := some "broken pipe" }
    (∃ report, run ⟨.fuzz, ⟨"alpha"⟩⟩ exercise [] short = .ok report ∧
      report.output.received.toList = [0xC3] ∧ report.output.flushes = 0 ∧
      report.verdict = .error (.channel "failed to write whole buffer")) ∧
    ∃ report, run ⟨.fuzz, ⟨"alpha"⟩⟩ exercise [] broken = .ok report ∧
      report.output.received.toList = [0xC3, 0xA9, 0x0A] ∧
      report.output.flushes = 1 ∧
      report.verdict = .error (.channel "broken pipe") := by
  intro exercise short broken
  have hfull : (["é"].flatMap fun name => Utf8.encode name ++ [0x0A]) =
      [0xC3, 0xA9, 0x0A] := by decide
  constructor
  · obtain ⟨order, report, horder, hrun, -, hreceived, -, hshort, -⟩ :=
      run_fuzz_on_sink ⟨"alpha"⟩ exercise short
    have hnames : order.names = ["é"] :=
      List.perm_singleton.mp (Order.names_perm_of_ofSeed horder)
    rw [hnames, hfull] at hreceived hshort
    obtain ⟨hflushes, hverdict⟩ := hshort (by simp [Sink.Fits, short])
    exact ⟨report, hrun _ _, hreceived, hflushes, hverdict⟩
  · obtain ⟨order, report, horder, hrun, -, hreceived, hfits, -, -, hbroken⟩ :=
      run_fuzz_on_sink ⟨"alpha"⟩ exercise broken
    have hnames : order.names = ["é"] :=
      List.perm_singleton.mp (Order.names_perm_of_ofSeed horder)
    rw [hnames, hfull] at hreceived hfits hbroken
    have hroom : broken.Fits [0xC3, 0xA9, 0x0A].length := by
      simp [Sink.Fits, broken]
    obtain ⟨-, -, -, -, hflushes⟩ := hfits hroom
    exact ⟨report, hrun _ _, hreceived, hflushes, hbroken _ hroom rfl⟩

end Session

end RollCall

import RollCall.Proofs.Selection
import RollCall.Session

/-!
# Sessions on channels that work

What a session does when nothing fails: `run_fuzz` for the one that writes, to
a sink with enough room, and `run_judge` for the one that reads, from an input
that ends. Neither meets a fault, since every seed names an order.
-/

namespace RollCall

/-! ## Channels -/

theorem drain_bytes (piece : List UInt8) :
    drain [.bytes piece] = ⟨piece, none⟩ := by
  cases piece with
  | nil => rfl
  | cons b rest => simp [drain]

namespace Sink

/-- There is room for so many bytes. -/
def Fits (s : Sink) (count : ℕ) : Prop :=
  ∀ room ∈ s.room, count ≤ room

theorem accept_nil (s : Sink) : s.accept [] = s := by
  obtain ⟨room, _, _, _, _⟩ := s
  cases room <;> simp [accept]

theorem accept_accept (s : Sink) (first second : List UInt8) :
    (s.accept first).accept second = s.accept (first ++ second) := by
  obtain ⟨room, _, _, _, _⟩ := s
  cases room <;> simp [accept, Nat.sub_sub, ← Array.toList_inj]

theorem toList_received_accept (s : Sink) (bytes : List UInt8) :
    (s.accept bytes).received.toList = s.received.toList ++ bytes := by
  simp [accept]

theorem write_of_fits {s : Sink} {bytes : List UInt8}
    (h : s.Fits bytes.length) : s.write bytes = (.ok (), s.accept bytes) := by
  unfold write
  split
  · rfl
  · next room hroom => rw [if_pos (h room hroom)]

/-- Bytes may be cut anywhere: the second part is written if the first was. -/
theorem write_append (s : Sink) (first second : List UInt8) :
    s.write (first ++ second) =
      match s.write first with
      | (.ok (), next) => next.write second
      | (.error text, next) => (.error text, next) := by
  cases hroom : s.room with
  | none =>
      have hnext : (s.accept first).room = none := by simp [accept, hroom]
      simp only [write, hroom, hnext, accept_accept]
  | some room =>
      by_cases hfirst : first.length ≤ room
      · have hnext : (s.accept first).room = some (room - first.length) := by
          simp [accept, hroom]
        have hrest : (first ++ second).length ≤ room ↔
            second.length ≤ room - first.length := by
          rw [List.length_append]
          omega
        have htake : (first ++ second).take room =
            first ++ second.take (room - first.length) := by
          rw [List.take_append, List.take_of_length_le hfirst]
        simp only [write, hroom, hnext, if_pos hfirst, hrest, htake,
          accept_accept]
        rfl
      · -- the room ends inside the first part, so the second does not count
        have hboth : ¬ (first ++ second).length ≤ room := by
          rw [List.length_append]
          omega
        have htake : (first ++ second).take room = first.take room :=
          List.take_append_of_le_length (by omega)
        simp only [write, hroom, if_neg hfirst, if_neg hboth, htake]

/-- Writing pieces one by one comes to writing them joined. -/
theorem writeEach_eq_write (s : Sink) (pieces : List (List UInt8)) :
    s.writeEach pieces = s.write pieces.flatten := by
  induction pieces generalizing s with
  | nil =>
      have hfits : s.Fits ([] : List UInt8).length := fun room _ =>
        Nat.zero_le room
      rw [writeEach, List.flatten_nil, write_of_fits hfits, accept_nil]
  | cons piece pieces ih =>
      rw [List.flatten_cons, write_append, writeEach]
      obtain ⟨written, next⟩ := s.write piece
      cases written with
      | ok => exact ih next
      | error text => rfl

end Sink

/-! ## Sessions -/

/-- With room for all lines, the flush comes after all of them. -/
theorem Order.publish_of_fits {o : Order} {output : Sink}
    (h : output.Fits o.nameLines.flatten.length) :
    o.publish output = (output.accept o.nameLines.flatten).flush := by
  rw [publish, Sink.writeEach_eq_write, Sink.write_of_fits h]

namespace Session

variable {seed : Seed} {exercise : Exercise} {order : Order}
  (horder : Order.ofSeed seed exercise.pool = .ok order)
  {input : List Delivery} {output : Sink}

include horder

/-- A session that writes leaves the names on the sink and the input alone. -/
theorem run_fuzz (input : List Delivery)
    (hfits : output.Fits order.nameLines.flatten.length)
    (hflush : output.flushFailure? = none) :
    ∃ report, run ⟨.fuzz, seed⟩ exercise input output = .ok report ∧
      report.verdict = .ok () ∧
      report.output.received.toList =
        output.received.toList ++ order.nameLines.flatten := by
  have hpublish : order.publish output =
      (.ok (), { output.accept order.nameLines.flatten with
        flushes := output.flushes + 1 }) := by
    rw [Order.publish_of_fits hfits]
    simp [Sink.flush, Sink.accept, hflush]
  refine ⟨_, by rw [run, horder], ?_, ?_⟩
  · simp [pose, hpublish]
  · simp [pose, hpublish, Sink.toList_received_accept]

/-- A session that reads gives the verdict on all that it has read. -/
theorem run_judge {raw : List UInt8} (hdrain : drain input = ⟨raw, none⟩)
    (output : Sink) :
    ∃ report, run ⟨.judge, seed⟩ exercise input output = .ok report ∧
      report.verdict = order.mark exercise.greeting (Utf8.lenient raw) := by
  refine ⟨_, by rw [run, horder], ?_⟩
  simp [assess, hdrain, Order.mark]

end Session

end RollCall

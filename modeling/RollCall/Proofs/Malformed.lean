import RollCall.Proofs.Decoding
import RollCall.Proofs.Lines
import RollCall.Proofs.Marking
import RollCall.Proofs.Sessions

/-!
# Answers that are no text

Bytes that are no UTF-8 leave a replacement character behind when they are
read (`malformed_iff`), and line ends never take one away. So such an answer
has a line with a replacement character in it, and can only be accepted where
one is expected. Where one is, some such answer is accepted: a stray byte reads
the same as the character it stands for.
-/

namespace RollCall

namespace Utf8

/-! ## Malformed bytes -/

/-- Bytes that are the encoding of no text. -/
def Malformed (bytes : List UInt8) : Prop :=
  ¬ (ByteArray.mk bytes.toArray).IsValidUTF8

theorem malformed_iff_encode_ne {bytes : List UInt8} :
    Malformed bytes ↔ ∀ text, encode text ≠ bytes := by
  rw [Malformed, ← not_exists, not_iff_not]
  constructor
  · rintro ⟨chars, hchars⟩
    refine ⟨String.ofList chars, ?_⟩
    rw [encode, String.toByteArray_ofList, ← hchars]
  · rintro ⟨text, rfl⟩
    exact ⟨text.toList, by simp [encode, ← String.toByteArray_ofList]⟩

/-- What is read determines the bytes, as long as none of it is damage. -/
theorem encode_of_decode {bytes : List UInt8} {text : String}
    (h : decode bytes = text.toList.map some) : encode text = bytes := by
  obtain ⟨stretches, hread, rfl⟩ := exists_stretches bytes
  rw [h, List.forall₂_map_left_iff] at hread
  rw [encode_eq_flatMap]
  clear h
  generalize text.toList = chars at hread ⊢
  induction hread with
  | nil => rfl
  | cons hc _ ih =>
      rw [List.flatMap_cons, List.flatten_cons, ih, hc _ rfl]

theorem encode_lenient {bytes : List UInt8} (h : none ∉ decode bytes) :
    encode (lenient bytes) = bytes := by
  apply encode_of_decode
  rw [toList_lenient, List.map_map]
  conv_lhs => rw [← List.map_id (decode bytes)]
  refine List.map_congr_left fun item hitem => ?_
  cases item with
  | some c => rfl
  | none => exact absurd hitem h

/-- Malformed bytes are those that some damage is read from. -/
theorem malformed_iff {bytes : List UInt8} :
    Malformed bytes ↔ none ∈ decode bytes := by
  rw [malformed_iff_encode_ne]
  constructor
  · intro hbytes
    by_contra hnone
    exact hbytes _ (encode_lenient hnone)
  · rintro hnone text rfl
    simp [decode_encode] at hnone

theorem Malformed.mem_lenient {bytes : List UInt8} (h : Malformed bytes) :
    replacement ∈ (lenient bytes).toList := by
  rw [toList_lenient, List.mem_map]
  exact ⟨none, malformed_iff.mp h, rfl⟩

/-- A replacement character in a text can stand for damage: some malformed
bytes read as that text. -/
theorem exists_malformed {text : String} (h : replacement ∈ text.toList) :
    ∃ bytes, Malformed bytes ∧ lenient bytes = text := by
  obtain ⟨before, after, htext⟩ := List.append_of_mem h
  let bytes := encode (String.ofList before) ++
    0xFF :: encode (String.ofList after)
  have hdecode : decode bytes = before.map some ++ none :: after.map some := by
    -- no sequence opens with this byte
    have hstray : ∀ rest, decode (0xFF :: rest) = none :: decode rest := by
      intro rest
      rw [decode_eq_decodeFrom, decode_eq_decodeFrom]
      rfl
    rw [decode_encode_append, hstray, decode_encode, String.toList_ofList,
      String.toList_ofList]
  refine ⟨bytes, malformed_iff.mpr ?_, ?_⟩
  · rw [hdecode]
    simp
  · rw [← String.toList_inj, toList_lenient, hdecode, htext]
    simp

end Utf8

/-! ## The line that damage lands in -/

namespace Lines

variable {α : Type} {lf cr : α} {ls : List (List α)} {xs : List α}

/-- What is neither of the two line ends is part of some line. -/
theorem Written.exists_mem_line {x : α} (h : Written lf cr ls xs)
    (hlf : x ≠ lf) (hcr : x ≠ cr) (hx : x ∈ xs) : ∃ l ∈ ls, x ∈ l := by
  induction h with
  | nil => exact absurd hx List.not_mem_nil
  | @last l => exact ⟨l, by simp, hx⟩
  | @line l t r ls _ ht _ ih =>
      have hend : x ∉ t := by cases ht <;> simp [hlf, hcr]
      rw [List.mem_append, List.mem_append, or_iff_left hend] at hx
      rcases hx with hx | hx
      · exact ⟨l, List.mem_cons_self, hx⟩
      · obtain ⟨l', hl', hx'⟩ := ih hx
        exact ⟨l', List.mem_cons_of_mem _ hl', hx'⟩

/-- Lines that end with both characters, whatever they hold before them. -/
theorem written_pairs (h : ∀ l ∈ ls, lf ∉ l) :
    Written lf cr ls (ls.flatMap (· ++ [cr, lf])) := by
  induction ls with
  | nil => exact .nil
  | cons l ls ih =>
      rw [List.forall_mem_cons] at h
      exact .line h.1 .pair (ih h.2)

theorem exists_mem_ofText {text : String} {c : Char} (h : c ∈ text.toList)
    (hlf : c ≠ '\n') (hcr : c ≠ '\r') : ∃ line ∈ ofText text, c ∈ line.toList := by
  have hwritten := ofText_eq_iff.mp (rfl : ofText text = ofText text)
  obtain ⟨l, hl, hc⟩ := hwritten.exists_mem_line hlf hcr h
  obtain ⟨line, hline, rfl⟩ := List.mem_map.mp hl
  exact ⟨line, hline, hc⟩

end Lines

namespace Order

variable {o : Order} {g : Greeting} {text : String}

/-- An answer with a character that no line expected has is refused at its
line or before, and never for its end. -/
theorem mark_of_foreign {c : Char} (h : c ∈ text.toList) (hlf : c ≠ '\n')
    (hcr : c ≠ '\r') (hforeign : ∀ line ∈ o.expected g, c ∉ line.toList) :
    (∃ number expected actual,
        o.mark g text = .error (.mismatch number expected actual)) ∨
      o.mark g text = .error .surplusLine := by
  obtain ⟨line, hline, hc⟩ := Lines.exists_mem_ofText h hlf hcr
  obtain ⟨common, rest, later, hlines, hexpected, happart⟩ :=
    exists_common (Lines.ofText text) (o.expected g)
  have hrest : line ∈ rest := by
    rw [hlines, List.mem_append] at hline
    refine hline.resolve_left fun hcommon => hforeign line ?_ hc
    rw [hexpected]
    exact List.mem_append_left _ hcommon
  rw [mark_of_split hexpected hlines happart]
  cases later with
  | nil =>
      right
      rw [Judge.verdictAfter_eq_surplus_iff]
      refine ⟨rfl, line, hrest, ?_⟩
      rintro rfl
      simp at hc
  | cons e later =>
      left
      -- a line is left, so the answer does not end here
      obtain ⟨actual, rest, rfl⟩ :=
        List.exists_cons_of_ne_nil (List.ne_nil_of_mem hrest)
      exact ⟨_, e, actual, rfl⟩

theorem exists_expected_of_mark_ok {c : Char} (hok : o.mark g text = .ok ())
    (h : c ∈ text.toList) (hlf : c ≠ '\n') (hcr : c ≠ '\r') :
    ∃ line ∈ o.expected g, c ∈ line.toList := by
  by_contra hnone
  have hforeign : ∀ line ∈ o.expected g, c ∉ line.toList := by
    simpa using hnone
  rcases mark_of_foreign h hlf hcr hforeign with ⟨_, _, _, herror⟩ | herror
  · simp [herror] at hok
  · simp [herror] at hok

/-- Where no line expected holds a line feed, some accepted answer has all of
them. -/
theorem exists_accepted (h : ∀ line ∈ o.expected g, '\n' ∉ line.toList) :
    ∃ text, o.mark g text = .ok () ∧
      ∀ line ∈ o.expected g, ∀ c ∈ line.toList, c ∈ text.toList := by
  let lines := (o.expected g).map String.toList
  have hwritten : Lines.Written '\n' '\r' lines
      (String.ofList (lines.flatMap (· ++ ['\r', '\n']))).toList := by
    rw [String.toList_ofList]
    exact Lines.written_pairs (by simpa [lines] using h)
  have hlines := Lines.ofText_eq_iff.mpr hwritten
  refine ⟨_, mark_eq_ok_iff.mpr ⟨0, by simpa using hlines⟩, ?_⟩
  intro line hline c hc
  rw [String.toList_ofList, List.mem_flatMap]
  exact ⟨_, List.mem_map_of_mem hline, List.mem_append_left _ hc⟩

end Order

/-! ## Sessions -/

/-- **Malformed answers.** Where neither the greeting nor a name has a
replacement character, a malformed answer meets a line that is not the one
expected or a line too many. In general, with no line feed in a line expected,
a malformed answer can be accepted exactly if some line expected has a
replacement character. -/
theorem Session.run_judge_malformed (seed : Seed) (exercise : Exercise)
    (output : Sink) :
    ∃ order, Order.ofSeed seed exercise.pool = .ok order ∧
      (Utf8.replacement ∉ exercise.greeting.before.toList →
        Utf8.replacement ∉ exercise.greeting.after.toList →
        (∀ name ∈ exercise.pool.names, Utf8.replacement ∉ name.toList) →
        ∀ input raw, drain input = ⟨raw, none⟩ → Utf8.Malformed raw →
          ∃ report, run ⟨.judge, seed⟩ exercise input output = .ok report ∧
            ((∃ number expected actual, report.verdict =
                .error (.mismatch number expected actual)) ∨
              report.verdict = .error .surplusLine)) ∧
      ((∀ line ∈ order.expected exercise.greeting, '\n' ∉ line.toList) →
        ((∃ input raw report, drain input = ⟨raw, none⟩ ∧
            Utf8.Malformed raw ∧
            run ⟨.judge, seed⟩ exercise input output = .ok report ∧
            report.verdict = .ok ()) ↔
          ∃ line ∈ order.expected exercise.greeting,
            Utf8.replacement ∈ line.toList)) := by
  have hlf : Utf8.replacement ≠ '\n' := by decide
  have hcr : Utf8.replacement ≠ '\r' := by decide
  obtain ⟨order, horder, hperm⟩ := Order.exists_ofSeed seed exercise.pool
  refine ⟨order, horder, ?_, ?_⟩
  · intro hbefore hafter hnames input raw hdrain hraw
    have hforeign : ∀ line ∈ order.expected exercise.greeting,
        Utf8.replacement ∉ line.toList := by
      intro line hline
      obtain ⟨name, hname, rfl⟩ := List.mem_map.mp hline
      exact Greeting.notMem_greet_iff.mpr
        ⟨hbefore, hnames name (hperm.subset hname), hafter⟩
    obtain ⟨report, hrun, hverdict⟩ := run_judge horder hdrain output
    refine ⟨report, hrun, ?_⟩
    rw [hverdict]
    exact Order.mark_of_foreign hraw.mem_lenient hlf hcr hforeign
  · intro hline
    constructor
    · rintro ⟨input, raw, report, hdrain, hraw, hrun, hok⟩
      obtain ⟨report', hrun', hverdict⟩ := run_judge horder hdrain output
      cases hrun.symm.trans hrun'
      rw [hverdict] at hok
      exact Order.exists_expected_of_mark_ok hok hraw.mem_lenient hlf hcr
    · rintro ⟨line, hmem, hc⟩
      obtain ⟨text, hok, hall⟩ := Order.exists_accepted hline
      obtain ⟨raw, hraw, hlenient⟩ := Utf8.exists_malformed (hall line hmem _ hc)
      obtain ⟨report, hrun, hverdict⟩ :=
        run_judge horder (drain_bytes raw) output
      refine ⟨_, raw, report, drain_bytes raw, hraw, hrun, ?_⟩
      rw [hverdict, hlenient, hok]

/-- Two stray bytes under the standard greeting, and some under a greeting that
is itself a replacement character. -/
theorem Session.run_judge_malformed_stray :
    (drain [.bytes [0xFF, 0xFE], .bytes [0x0A]] = ⟨[0xFF, 0xFE, 0x0A], none⟩ ∧
      Utf8.Malformed [0xFF, 0xFE, 0x0A] ∧
      ∃ report, run ⟨.judge, ⟨"alpha"⟩⟩ Exercise.standard
          [.bytes [0xFF, 0xFE], .bytes [0x0A]] {} = .ok report ∧
        ((∃ number expected actual, report.verdict =
            .error (.mismatch number expected actual)) ∨
          report.verdict = .error .surplusLine)) ∧
      ∃ input raw report, drain input = ⟨raw, none⟩ ∧ Utf8.Malformed raw ∧
        run ⟨.judge, ⟨"alpha"⟩⟩ ⟨Pool.standard, ⟨"\uFFFD", ""⟩⟩ input {} =
          .ok report ∧
        report.verdict = .ok () := by
  constructor
  · have hraw : Utf8.Malformed [0xFF, 0xFE, 0x0A] :=
      Utf8.malformed_iff.mpr (by decide)
    obtain ⟨-, -, hrefused, -⟩ :=
      run_judge_malformed ⟨"alpha"⟩ Exercise.standard {}
    exact ⟨rfl, hraw,
      hrefused (by decide) (by decide) (by decide) _ _ rfl hraw⟩
  · obtain ⟨order, horder, -, haccepted⟩ :=
      run_judge_malformed ⟨"alpha"⟩ ⟨Pool.standard, ⟨"\uFFFD", ""⟩⟩ {}
    have hperm := Order.names_perm_of_ofSeed horder
    have hnames : ∀ name ∈ Pool.standard.names,
        '\n' ∉ (Greeting.greet ⟨"\uFFFD", ""⟩ name).toList := by decide
    refine (haccepted ?_).mpr ⟨Greeting.greet ⟨"\uFFFD", ""⟩ "Keith", ?_, ?_⟩
    · intro line hline
      obtain ⟨name, hname, rfl⟩ := List.mem_map.mp hline
      exact hnames name (hperm.subset hname)
    · exact List.mem_map_of_mem (hperm.mem_iff.mpr (by decide))
    · decide

end RollCall

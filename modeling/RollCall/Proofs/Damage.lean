import RollCall.Proofs.Decoding
import RollCall.Proofs.Lines
import RollCall.Proofs.Sessions

/-!
# Lines of damaged bytes

Reading bytes leniently and then cutting lines gives the same as cutting the
bytes and reading each line on its own: `ofText_lenient`. The two line ends are
ASCII, so they read as themselves wherever they stand, and no other byte reads
as one of them. A session that reads an answer as one text therefore judges as
if it had read it line by line (`run_judge_bytewise`).
-/

namespace RollCall.Utf8

/-! ## Where an ASCII character comes from -/

/-- The stretch of one item among those of all. -/
theorem exists_stretch {before after : List (Option Char)}
    {item : Option Char} {stretches : List (List UInt8)}
    (h : List.Forall₂ ReadFrom (before ++ item :: after) stretches) :
    ∃ l stretch r, stretches = l ++ stretch :: r ∧ ReadFrom item stretch ∧
      List.Forall₂ ReadFrom after r := by
  induction before generalizing stretches with
  | nil =>
      cases h with
      | @cons _ stretch _ r hitem hafter =>
          exact ⟨[], stretch, r, rfl, hitem, hafter⟩
  | cons first before ih =>
      cases h with
      | cons _ h =>
          obtain ⟨l, stretch, r, rfl, hitem, hafter⟩ := ih h
          exact ⟨_ :: l, stretch, r, rfl, hitem, hafter⟩

/-- The replacement character is not ASCII, so an ASCII character was read from
its own byte. -/
theorem ReadFrom.eq_singleton {item : Option Char} {stretch : List UInt8}
    (h : ReadFrom item stretch) {b : UInt8} (hb : b < 0x80)
    (hitem : item.getD replacement = Char.ofNat b.toNat) : stretch = [b] := by
  replace hb : b.toNat < 0x80 := UInt8.lt_iff_toNat_lt.mp hb
  cases item with
  | some c =>
      have hc : c = Char.ofNat b.toNat := hitem
      rw [h c rfl, hc, encodeChar_one hb, UInt8.ofNat_toNat]
  | none =>
      have htoNat : 0xFFFD = (Char.ofNat b.toNat).toNat :=
        congrArg Char.toNat hitem
      rw [toNat_ofNat_of_valid (Or.inl (by omega))] at htoNat
      omega

/-- Where an ASCII character is read, its byte stands: the last character is
the last byte. -/
theorem exists_byte_of_ascii {b : UInt8} (hb : b < 0x80) {bytes : List UInt8}
    {before after : List Char}
    (h : (lenient bytes).toList = before ++ Char.ofNat b.toNat :: after) :
    ∃ l r, bytes = l ++ b :: r ∧ (after = [] → r = []) := by
  rw [toList_lenient, List.map_eq_append_iff] at h
  obtain ⟨items, later, hitems, rfl, hlater⟩ := h
  obtain ⟨item, items', rfl, hitem, rfl⟩ := List.map_eq_cons_iff.mp hlater
  obtain ⟨stretches, hread, hbytes⟩ := exists_stretches bytes
  rw [hitems] at hread
  obtain ⟨l, stretch, r, rfl, hfrom, hafter⟩ := exists_stretch hread
  refine ⟨l.flatten, r.flatten, ?_, ?_⟩
  · rw [← hbytes, List.flatten_append, List.flatten_cons,
      hfrom.eq_singleton hb hitem]
    rfl
  · intro hnil
    rw [List.map_eq_nil_iff] at hnil
    subst hnil
    cases hafter
    rfl

theorem notMem_lenient {b : UInt8} (hb : b < 0x80) {bytes : List UInt8}
    (h : b ∉ bytes) : Char.ofNat b.toNat ∉ (lenient bytes).toList := by
  intro hmem
  obtain ⟨before, after, heq⟩ := List.append_of_mem hmem
  obtain ⟨l, r, rfl, -⟩ := exists_byte_of_ascii hb heq
  exact h (by simp)

theorem getLast?_lenient_ne {b : UInt8} (hb : b < 0x80) {bytes : List UInt8}
    (h : bytes.getLast? ≠ some b) :
    (lenient bytes).toList.getLast? ≠ some (Char.ofNat b.toNat) := by
  intro hlast
  obtain ⟨before, heq⟩ := List.getLast?_eq_some_iff.mp hlast
  obtain ⟨l, r, rfl, hr⟩ := exists_byte_of_ascii hb heq
  exact h (by simp [hr rfl])

theorem lenient_ne_nil {bytes : List UInt8} (h : bytes ≠ []) :
    (lenient bytes).toList ≠ [] := by
  intro hnil
  obtain ⟨stretches, hread, hbytes⟩ := exists_stretches bytes
  rw [toList_lenient, List.map_eq_nil_iff] at hnil
  rw [hnil, List.forall₂_nil_left_iff] at hread
  exact h (by rw [← hbytes, hread]; rfl)

theorem toList_lenient_append_ascii {b : UInt8} (hb : b < 0x80)
    (bytes rest : List UInt8) :
    (lenient (bytes ++ b :: rest)).toList =
      (lenient bytes).toList ++ Char.ofNat b.toNat :: (lenient rest).toList := by
  simp [toList_lenient, decode_append_ascii hb]

/-! ## Line by line -/

/-- Bytes written as lines read as the text written as those lines. -/
theorem written_lenient {lines : List (List UInt8)} {bytes : List UInt8}
    (h : Lines.Written 0x0A 0x0D lines bytes) :
    Lines.Written '\n' '\r' (lines.map fun line => (lenient line).toList)
      (lenient bytes).toList := by
  have hlf : (0x0A : UInt8) < 0x80 := by decide
  have hcr : (0x0D : UInt8) < 0x80 := by decide
  induction h with
  | nil => exact .nil
  | last hne hmem => exact .last (lenient_ne_nil hne) (notMem_lenient hlf hmem)
  | @line l t r lines hmem ht _ ih =>
      have hline := notMem_lenient hlf hmem
      -- ASCII bytes part the text where they part the bytes
      cases ht with
      | lineFeed hlast =>
          have hbytes : l ++ [0x0A] ++ r = l ++ 0x0A :: r := by simp
          have hending := getLast?_lenient_ne hcr hlast
          have hwritten := Lines.Written.line hline (.lineFeed hending) ih
          rw [List.append_assoc] at hwritten
          rw [hbytes, toList_lenient_append_ascii hlf]
          exact hwritten
      | pair =>
          have hbytes :
              l ++ [0x0D, 0x0A] ++ r = l ++ 0x0D :: ([] ++ 0x0A :: r) := by simp
          have hwritten := Lines.Written.line hline .pair ih
          rw [List.append_assoc] at hwritten
          rw [hbytes, toList_lenient_append_ascii hcr,
            toList_lenient_append_ascii hlf]
          exact hwritten

/-- **Damage stays in its line.** -/
theorem ofText_lenient (bytes : List UInt8) :
    Lines.ofText (lenient bytes) =
      (Lines.split 0x0A 0x0D bytes).map lenient := by
  rw [Lines.ofText_eq_iff, List.map_map]
  exact written_lenient (Lines.written_split 0x0A 0x0D bytes)

end RollCall.Utf8

namespace RollCall

/-- **Damage stays in its line.** Whatever bytes an answer is made of, they are
the bytes of some lines and of no others, and a session gives the verdict of the
judge that hears each of these lines read on its own. -/
theorem Session.run_judge_bytewise (seed : Seed) (exercise : Exercise)
    {input : List Delivery} {raw : List UInt8}
    (hdrain : drain input = ⟨raw, none⟩) (output : Sink) :
    ∃ order report lines, Order.ofSeed seed exercise.pool = .ok order ∧
      run ⟨.judge, seed⟩ exercise input output = .ok report ∧
      (∀ others, Lines.Written 0x0A 0x0D others raw ↔ others = lines) ∧
      report.verdict = (Judge.conclude ⟨order, exercise.greeting, 0⟩
        (lines.map Utf8.lenient)).1 := by
  obtain ⟨order, horder, -⟩ := Order.exists_ofSeed seed exercise.pool
  obtain ⟨report, hrun, hverdict⟩ := run_judge horder hdrain output
  refine ⟨order, report, Lines.split 0x0A 0x0D raw, horder, hrun, ?_, ?_⟩
  · intro others
    rw [← Lines.split_eq_iff (by decide), eq_comm]
  · rw [hverdict, Order.mark, Order.examine, Utf8.ofText_lenient]

/-- A sequence that is cut off by the end of its line, after an interruption,
and another by the end of the bytes. -/
theorem Session.run_judge_bytewise_truncated :
    drain [.bytes [0xE2, 0x82], .interrupted, .bytes [0x0D, 0x0A, 0xFF]] =
        ⟨[0xE2, 0x82, 0x0D, 0x0A, 0xFF], none⟩ ∧
      ∃ order report,
        Order.ofSeed ⟨"alpha"⟩ Exercise.standard.pool = .ok order ∧
        run ⟨.judge, ⟨"alpha"⟩⟩ Exercise.standard
          [.bytes [0xE2, 0x82], .interrupted, .bytes [0x0D, 0x0A, 0xFF]] {} =
            .ok report ∧
        report.verdict = (Judge.conclude ⟨order, Greeting.standard, 0⟩
          ["\uFFFD", "\uFFFD"]).1 := by
  have hdrain : drain
      [.bytes [0xE2, 0x82], .interrupted, .bytes [0x0D, 0x0A, 0xFF]] =
        ⟨[0xE2, 0x82, 0x0D, 0x0A, 0xFF], none⟩ := rfl
  obtain ⟨order, report, lines, horder, hrun, hlines, hverdict⟩ :=
    run_judge_bytewise ⟨"alpha"⟩ Exercise.standard hdrain {}
  have hwritten : Lines.Written 0x0A 0x0D [[0xE2, 0x82], [0xFF]]
      ([0xE2, 0x82] ++ [0x0D, 0x0A] ++ [0xFF] : List UInt8) :=
    .line (by decide) .pair (.last (by decide) (by decide))
  have hread : [[0xE2, 0x82], [0xFF]].map Utf8.lenient =
      ["\uFFFD", "\uFFFD"] := by decide
  rw [← (hlines _).mp hwritten, hread] at hverdict
  exact ⟨hdrain, order, report, horder, hrun, hverdict⟩

end RollCall

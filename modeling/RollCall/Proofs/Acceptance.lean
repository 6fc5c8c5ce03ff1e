import RollCall.Proofs.Lines
import RollCall.Proofs.Marking

/-!
# The language of accepted answers

Which texts a judge accepts, said of their characters alone. An accepted text
either stops right after the last line expected (`Unterminated`) or gives that
line its ending too and goes on with blank lines (`FollowedByBlanks`). Both are
made of lines with an ending each (`Terminated`), and `written_iff` finds them
in what reading inverts to.
-/

namespace RollCall

namespace Lines

variable {α : Type} {lf cr : α} {ls ms : List (List α)} {xs : List α}

/-! ## Lines with an ending each -/

inductive Terminated (lf cr : α) : List (List α) → List α → Prop
  | nil : Terminated lf cr [] []
  | cons {l t r : List α} {ls : List (List α)} (ht : Ending lf cr l t)
      (hr : Terminated lf cr ls r) : Terminated lf cr (l :: ls) (l ++ t ++ r)

theorem terminated_append :
    Terminated lf cr (ls ++ ms) xs ↔
      ∃ r s, Terminated lf cr ls r ∧ Terminated lf cr ms s ∧ xs = r ++ s := by
  induction ls generalizing xs with
  | nil =>
      constructor
      · intro h
        exact ⟨[], xs, .nil, h, rfl⟩
      · rintro ⟨r, s, hr, hs, rfl⟩
        cases hr
        exact hs
  | cons l ls ih =>
      constructor
      · intro h
        cases h with
        | cons ht hrest =>
            obtain ⟨r, s, hr, hs, rfl⟩ := ih.mp hrest
            exact ⟨_, s, .cons ht hr, hs, by simp⟩
      · rintro ⟨r, s, hr, hs, rfl⟩
        cases hr with
        | cons ht hr =>
            rw [List.append_assoc]
            exact .cons ht (ih.mpr ⟨_, s, hr, hs, rfl⟩)

theorem ending_nil_iff {t : List α} :
    Ending lf cr [] t ↔ t = [lf] ∨ t = [cr, lf] := by
  constructor
  · intro h
    cases h with
    | lineFeed => exact Or.inl rfl
    | pair => exact Or.inr rfl
  · rintro (rfl | rfl)
    · exact .lineFeed (by simp)
    · exact .pair

/-- Empty lines are nothing but their endings. -/
theorem terminated_replicate_nil {n : ℕ} :
    Terminated lf cr (List.replicate n []) xs ↔
      ∃ blanks : List (List α), blanks.length = n ∧
        (∀ b ∈ blanks, b = [lf] ∨ b = [cr, lf]) ∧ xs = blanks.flatten := by
  induction n generalizing xs with
  | zero =>
      constructor
      · intro h
        cases h
        exact ⟨[], rfl, by simp, rfl⟩
      · rintro ⟨blanks, hn, -, rfl⟩
        rw [List.length_eq_zero_iff.mp hn]
        exact .nil
  | succ n ih =>
      rw [List.replicate_succ]
      constructor
      · intro h
        cases h with
        | @cons _ t _ _ ht hr =>
            obtain ⟨blanks, hn, hblanks, rfl⟩ := ih.mp hr
            refine ⟨t :: blanks, by simp [hn], ?_, rfl⟩
            exact List.forall_mem_cons.mpr ⟨ending_nil_iff.mp ht, hblanks⟩
      · rintro ⟨blanks, hn, hblanks, rfl⟩
        cases blanks with
        | nil => simp at hn
        | cons t blanks =>
            rw [List.forall_mem_cons] at hblanks
            exact .cons (ending_nil_iff.mpr hblanks.1)
              (ih.mpr ⟨blanks, by simpa using hn, hblanks.2, rfl⟩)

theorem Ending.getLast? {l t : List α} (h : Ending lf cr l t) :
    t.getLast? = some lf := by
  cases h <;> rfl

/-- Where each line has its ending, nothing else comes last. -/
theorem Terminated.getLast? (h : Terminated lf cr ls xs) :
    xs.getLast? = none ∨ xs.getLast? = some lf := by
  induction h with
  | nil => exact Or.inl rfl
  | cons ht _ ih =>
      right
      rw [List.getLast?_append, List.getLast?_append, ht.getLast?]
      rcases ih with hr | hr <;> simp [hr]

/-! ## What is written, line by line -/

theorem Terminated.append_written {r s : List α}
    (h : Terminated lf cr ls r) (hlf : ∀ l ∈ ls, lf ∉ l)
    (hs : Written lf cr ms s) : Written lf cr (ls ++ ms) (r ++ s) := by
  induction h with
  | nil => exact hs
  | cons ht _ ih =>
      rw [List.forall_mem_cons] at hlf
      rw [List.append_assoc]
      exact .line hlf.1 ht (ih hlf.2)

/-- The lines that a text stops in the middle of: all but the last have an
ending, and the last is there. -/
def Unterminated (lf cr : α) (ls : List (List α)) (xs : List α) : Prop :=
  ∃ init last r, ls = init ++ [last] ∧ last ≠ [] ∧
    Terminated lf cr init r ∧ xs = r ++ last

theorem written_iff :
    Written lf cr ls xs ↔
      (∀ l ∈ ls, lf ∉ l) ∧
        (Unterminated lf cr ls xs ∨ Terminated lf cr ls xs) := by
  constructor
  · intro h
    refine ⟨h.notMem, ?_⟩
    -- whether the text stops in the middle is settled at its end
    induction h with
    | nil => exact Or.inr .nil
    | last hne => exact Or.inl ⟨[], _, [], rfl, hne, .nil, rfl⟩
    | @line l t r ls _ ht _ ih =>
        rcases ih with ⟨init, last, r, rfl, hne, hinit, rfl⟩ | hr
        · exact Or.inl ⟨l :: init, last, l ++ t ++ r, rfl, hne,
            .cons ht hinit, by simp⟩
        · exact Or.inr (.cons ht hr)
  · rintro ⟨hlf, ⟨init, last, r, rfl, hne, hinit, rfl⟩ | h⟩
    · rw [List.forall_mem_append, List.forall_mem_singleton] at hlf
      exact hinit.append_written hlf.1 (.last hne hlf.2)
    · simpa using h.append_written hlf .nil

/-- Lines with an ending each, and after them any number of blank lines. -/
def FollowedByBlanks (lf cr : α) (ls : List (List α)) (xs : List α) : Prop :=
  ∃ r, ∃ blanks : List (List α), Terminated lf cr ls r ∧
    (∀ b ∈ blanks, b = [lf] ∨ b = [cr, lf]) ∧ xs = r ++ blanks.flatten

theorem followedByBlanks_iff :
    FollowedByBlanks lf cr ls xs ↔
      ∃ count, Terminated lf cr (ls ++ List.replicate count []) xs := by
  constructor
  · rintro ⟨r, blanks, hr, hblanks, rfl⟩
    exact ⟨blanks.length, terminated_append.mpr ⟨r, _, hr,
      terminated_replicate_nil.mpr ⟨blanks, rfl, hblanks, rfl⟩, rfl⟩⟩
  · rintro ⟨count, h⟩
    obtain ⟨r, s, hr, hs, rfl⟩ := terminated_append.mp h
    obtain ⟨blanks, -, hblanks, rfl⟩ := terminated_replicate_nil.mp hs
    exact ⟨r, blanks, hr, hblanks, rfl⟩

/-- Lines, and after them any number of empty ones: only the last of the lines
themselves can be the one without ending. -/
theorem written_append_empty_iff :
    (∃ count, Written lf cr (ls ++ List.replicate count []) xs) ↔
      (∀ l ∈ ls, lf ∉ l) ∧
        (Unterminated lf cr ls xs ∨ FollowedByBlanks lf cr ls xs) := by
  have hmem : ∀ count, (∀ l ∈ ls ++ List.replicate count [], lf ∉ l) ↔
      ∀ l ∈ ls, lf ∉ l := by
    intro count
    rw [List.forall_mem_append, and_iff_left]
    intro l hl
    rw [(List.mem_replicate.mp hl).2]
    exact List.not_mem_nil
  constructor
  · rintro ⟨count, h⟩
    obtain ⟨hlf, hshape⟩ := written_iff.mp h
    refine ⟨(hmem count).mp hlf, ?_⟩
    rcases hshape with ⟨init, last, r, hls, hne, hinit, rfl⟩ | hterm
    · cases count with
      | zero =>
          rw [List.replicate_zero, List.append_nil] at hls
          exact Or.inl ⟨init, last, r, hls, hne, hinit, rfl⟩
      | succ count =>
          -- an empty line without ending would not be a line
          rw [List.replicate_succ', ← List.append_assoc] at hls
          obtain ⟨-, hlast⟩ := List.append_inj' hls rfl
          exact absurd (List.singleton_inj.mp hlast).symm hne
    · exact Or.inr (followedByBlanks_iff.mpr ⟨count, hterm⟩)
  · rintro ⟨hlf, hopen | hclosed⟩
    · exact ⟨0, by simpa using written_iff.mpr ⟨hlf, Or.inl hopen⟩⟩
    · obtain ⟨count, hterm⟩ := followedByBlanks_iff.mp hclosed
      exact ⟨count, written_iff.mpr ⟨(hmem count).mpr hlf, Or.inr hterm⟩⟩

/-- A text whose lines all have an ending does not stop with a stray carriage
return. -/
theorem FollowedByBlanks.getLast?_ne (hne : lf ≠ cr)
    (h : FollowedByBlanks lf cr ls xs) : xs.getLast? ≠ some cr := by
  obtain ⟨count, hterm⟩ := followedByBlanks_iff.mp h
  rcases hterm.getLast? with hlast | hlast <;> simp [hlast, hne]

theorem Unterminated.getLast?_eq (h : Unterminated lf cr ls xs) :
    ∃ last, ls.getLast? = some last ∧ xs.getLast? = last.getLast? := by
  obtain ⟨init, last, r, rfl, hne, -, rfl⟩ := h
  exact ⟨last, by simp, List.getLast?_append_of_ne_nil r hne⟩

end Lines

/-- No text has a line feed inside a line, so none is accepted where one is
expected there. -/
theorem Order.notMem_of_mark_ok {o : Order} {g : Greeting} {text : String}
    (h : o.mark g text = .ok ()) :
    ∀ line ∈ o.expected g, '\n' ∉ line.toList := by
  obtain ⟨count, hlines⟩ := mark_eq_ok_iff.mp h
  have hwritten := Lines.ofText_eq_iff.mp hlines
  intro line hline
  exact hwritten.notMem _ (by simpa using Or.inl ⟨line, hline, rfl⟩)

/-- **The accepted texts.** With no line feed in a line expected, a text is
accepted exactly if it has one of the two shapes; so a stray carriage return
at its end is only accepted as the end of the last line expected. With a line
feed in one of them, nothing is accepted. -/
theorem Order.mark_accepts_iff (o : Order) (g : Greeting) (text : String) :
    let expected := (o.expected g).map String.toList
    (o.mark g text = .ok () ↔
      (∀ line ∈ expected, '\n' ∉ line) ∧
        (Lines.Unterminated '\n' '\r' expected text.toList ∨
          Lines.FollowedByBlanks '\n' '\r' expected text.toList)) ∧
    (o.mark g text = .ok () ∧ text.toList.getLast? = some '\r' →
      Lines.Unterminated '\n' '\r' expected text.toList ∧
        ∃ last, expected.getLast? = some last ∧ last.getLast? = some '\r') ∧
    ((∃ line ∈ expected, '\n' ∈ line) → o.mark g text ≠ .ok ()) := by
  intro expected
  have haccepted : o.mark g text = .ok () ↔
      (∀ line ∈ expected, '\n' ∉ line) ∧
        (Lines.Unterminated '\n' '\r' expected text.toList ∨
          Lines.FollowedByBlanks '\n' '\r' expected text.toList) := by
    rw [mark_eq_ok_iff, ← Lines.written_append_empty_iff]
    apply exists_congr
    intro count
    rw [Lines.ofText_eq_iff, List.map_append, List.map_replicate]
    rfl
  refine ⟨haccepted, ?_, ?_⟩
  · rintro ⟨hok, hcr⟩
    rcases (haccepted.mp hok).2 with hopen | hclosed
    · obtain ⟨last, hlast, htext⟩ := hopen.getLast?_eq
      exact ⟨hopen, last, hlast, htext ▸ hcr⟩
    · exact absurd hcr (hclosed.getLast?_ne (by decide))
  · rintro ⟨line, hline, hlf⟩ hok
    exact (haccepted.mp hok).1 line hline hlf

end RollCall

import Mathlib.Data.List.Basic
import RollCall.Proofs.Marking
import Std.Data.String.ToNat

/-!
# What a message tells

A message quotes the line expected and the line that came, and nothing keeps the
quotes apart from what is between them: taken alone it can be read in more than
one way. Among the failures of one order it cannot (`mark_message_injective`).
The number of the line comes first, up to a blank (`toString_append_inj`), and it
says which line was expected (`MayFail`), so what is left over is the line that
came.
-/

namespace RollCall

/-! ## Numbers as text -/

section Numbers

variable {α : Type} {x : α} {l l' r r' : List α} {m n : ℕ} {s t : String}

/-- A list is cut in one way only where an element first stands. -/
theorem append_cons_inj [DecidableEq α] (hl : x ∉ l) (hl' : x ∉ l')
    (h : l ++ x :: r = l' ++ x :: r') : l = l' ∧ r = r' := by
  have hlength : l.length = l'.length := by
    have hplace := congrArg (List.idxOf x) h
    simpa [List.idxOf_append_of_notMem hl, List.idxOf_append_of_notMem hl']
      using hplace
  obtain ⟨heq, hrest⟩ := List.append_inj h hlength
  exact ⟨heq, (List.cons.inj hrest).2⟩

theorem blank_notMem_toString (n : ℕ) : ' ' ∉ (toString n).toList := by
  intro hblank
  rw [Nat.toString_eq_ofList_toDigits, String.toList_ofList] at hblank
  have hdigit := Nat.isDigit_of_mem_toDigits (by decide) (by decide) hblank
  exact absurd hdigit (by decide)

/-- The blank after a number says where it ends. -/
theorem toString_append_inj
    (h : toString m ++ " " ++ s = toString n ++ " " ++ t) : m = n ∧ s = t := by
  have hlist := congrArg String.toList h
  simp only [String.toList_append, List.append_assoc] at hlist
  obtain ⟨hnumber, hrest⟩ := append_cons_inj (blank_notMem_toString m)
    (blank_notMem_toString n) hlist
  exact ⟨Nat.repr_injective (String.toList_inj.mp hnumber),
    String.toList_inj.mp hrest⟩

end Numbers

namespace Failure

/-! ## The three kinds of message -/

theorem message_mismatch (number : ℕ) (expected actual : String) :
    (mismatch number expected actual).message =
      "Case: " ++ (toString number ++ " " ++
        ("expected: \"" ++ expected ++ "\", got: \"" ++ actual ++ "\"")) := by
  have hblank : " expected: \"" = " " ++ "expected: \"" := by decide
  show "Case: " ++ toString number ++ " expected: \"" ++ expected ++
    "\", got: \"" ++ actual ++ "\"" = _
  simp only [hblank, String.append_assoc]

theorem message_missingLines (expected got : ℕ) :
    (missingLines expected got).message =
      "Too few lines. Expected " ++ (toString expected ++ ", got " ++
        toString got) := by
  show "Too few lines. Expected " ++ toString expected ++ ", got " ++
    toString got = _
  simp only [String.append_assoc]

/-- The characters that a message starts with; they tell its kind. -/
def opening (e : Failure) : List Char :=
  e.message.toList.take 5

@[simp] theorem opening_surplusLine :
    surplusLine.opening = ['T', 'o', 'o', ' ', 'm'] := rfl

@[simp] theorem opening_mismatch (number : ℕ) (expected actual : String) :
    (mismatch number expected actual).opening =
      ['C', 'a', 's', 'e', ':'] := by
  rw [opening, message_mismatch, String.toList_append]
  rfl

@[simp] theorem opening_missingLines (expected got : ℕ) :
    (missingLines expected got).opening = ['T', 'o', 'o', ' ', 'f'] := by
  rw [opening, message_missingLines, String.toList_append]
  rfl

/-- The number of the line is read off the message; what follows it is, but for
the line expected, the line that came. -/
theorem mismatch_inj_of_message {number number' : ℕ}
    {expected expected' actual actual' : String}
    (hsame : number = number' → expected = expected')
    (h : (mismatch number expected actual).message =
      (mismatch number' expected' actual').message) :
    mismatch number expected actual = mismatch number' expected' actual' := by
  rw [message_mismatch, message_mismatch, String.append_right_inj] at h
  obtain ⟨hnumber, hlines⟩ := toString_append_inj h
  rw [hsame hnumber, String.append_left_inj, String.append_right_inj] at hlines
  rw [hnumber, hsame hnumber, hlines]

-- With nothing known of the line expected, a quote can end in more than one
-- place.
example :
    (mismatch 1 "Ann" "Bob\", got: \"Cid").message =
      (mismatch 1 "Ann\", got: \"Bob" "Cid").message := by decide

theorem missingLines_inj_of_message {expected got got' : ℕ}
    (h : (missingLines expected got).message =
      (missingLines expected got').message) :
    missingLines expected got = missingLines expected got' := by
  rw [message_missingLines, message_missingLines, String.append_right_inj,
    String.append_right_inj] at h
  rw [Nat.repr_injective h]

/-! ## The failures of one order -/

/-- What can be wrong with an answer to an order: the number of a line says
which line was expected, and as many lines were expected as there are names. -/
inductive MayFail (o : Order) (g : Greeting) : Failure → Prop
  | surplusLine : MayFail o g .surplusLine
  | mismatch {k : ℕ} {expected : String} (actual : String)
      (hexpected : o.expected? g k = some expected) :
      MayFail o g (.mismatch (k + 1) expected actual)
  | missingLines (got : ℕ) : MayFail o g (.missingLines o.size got)

theorem MayFail.eq_of_message {o : Order} {g : Greeting} {e f : Failure}
    (he : MayFail o g e) (hf : MayFail o g f) (h : e.message = f.message) :
    e = f := by
  have hopening : e.opening = f.opening :=
    congrArg (fun text => text.toList.take 5) h
  cases he with
  | surplusLine =>
      cases hf with
      | surplusLine => rfl
      | mismatch => simp at hopening
      | missingLines => simp at hopening
  | @mismatch k expected actual hk =>
      cases hf with
      | surplusLine => simp at hopening
      | @mismatch k' expected' actual' hk' =>
          refine mismatch_inj_of_message (fun hnumber => ?_) h
          rw [Nat.add_right_cancel hnumber] at hk
          exact Option.some.inj (hk.symm.trans hk')
      | missingLines => simp at hopening
  | missingLines got =>
      cases hf with
      | surplusLine => simp at hopening
      | mismatch => simp at hopening
      | missingLines got' => exact missingLines_inj_of_message h

end Failure

namespace Order

variable {o : Order} {g : Greeting} {t u : String} {e f : Failure}

theorem mayFail_of_mark (h : o.mark g t = .error e) : e.MayFail o g := by
  obtain ⟨common, rest, later, hlines, hexpected, happart⟩ :=
    exists_common (Lines.ofText t) (o.expected g)
  rw [mark_of_split hexpected hlines happart] at h
  cases later with
  | nil =>
      rcases Judge.verdictAfter_nil common.length rest with hok | hsurplus
      · cases h.symm.trans hok
      · cases h.symm.trans hsurplus
        exact .surplusLine
  | cons line later =>
      cases rest with
      | nil =>
          rw [← Except.error.inj h, ← List.length_cons,
            ← size_of_expected hexpected]
          exact .missingLines common.length
      | cons actual rest =>
          rw [← Except.error.inj h]
          refine .mismatch actual ?_
          rw [expected?_eq, hexpected]
          simp

/-- **A message tells one failure of an order.** Where two answers are refused
with the same words, they are refused for the same reason, at the same line, and
the same line came, whatever quotes and numbers stand in the names, in the
greeting and in the answers. -/
theorem mark_message_injective (ht : o.mark g t = .error e)
    (hu : o.mark g u = .error f) (h : e.message = f.message) : e = f :=
  (mayFail_of_mark ht).eq_of_message (mayFail_of_mark hu) h

/-- Quotes in the name expected and in the lines that come instead of it, which
have different endings. -/
theorem mark_message_injective_quoted :
    let o : Order := ⟨["Ann", "Bob\", got: \"Bob"]⟩
    let t := "Ann\nBob\", got: \""
    let u := "Ann\r\nBob\", got: \"\r\n\nCid"
    ∃ e f, o.mark ⟨"", ""⟩ t = .error e ∧ o.mark ⟨"", ""⟩ u = .error f ∧
      e.message = f.message ∧ e = f := by
  intro o t u
  have ht : o.mark ⟨"", ""⟩ t =
      .error (.mismatch 2 "Bob\", got: \"Bob" "Bob\", got: \"") := by decide
  have hu : o.mark ⟨"", ""⟩ u =
      .error (.mismatch 2 "Bob\", got: \"Bob" "Bob\", got: \"") := by decide
  exact ⟨_, _, ht, hu, rfl, mark_message_injective ht hu rfl⟩

end Order

end RollCall

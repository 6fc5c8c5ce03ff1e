import RollCall.Proofs.Acceptance
import RollCall.Proofs.Resumption
import RollCall.Proofs.Selection

/-!
# The model answer

The model answer puts a line feed between the lines expected and none at the
end; reading it takes a carriage return from each line that a line feed follows,
and sees no line at the end where nothing stands. So what is read back is not
always what was joined (`ofText_intercalate`), and the model answer may fail its
own order. It fails at the first line before the last that ends with a carriage
return, or else for want of an empty last line, or not at all
(`mark_modelAnswer`).
-/

namespace RollCall

/-! ## Lines joined and read back -/

namespace Lines

/-- Joined lines are the lines but the last, each closed, and then the last. -/
theorem intercalate_concat (init : List String) (last : String) :
    "\n".intercalate (init ++ [last]) = toText init ++ last := by
  induction init with
  | nil => simp [toText]
  | cons line init ih =>
      have hcons : toText (line :: init) = line ++ "\n" ++ toText init := by
        simp [toText]
      rw [List.cons_append, String.intercalate_cons_of_ne_nil (by simp), ih,
        hcons]
      simp only [String.append_assoc]

theorem closed_toText (lines : List String) : Closed (toText lines) := by
  rcases List.eq_nil_or_concat' lines with rfl | ⟨init, last, rfl⟩
  · exact Or.inl rfl
  · right
    simp [toList_toText]

theorem ofText_of_notMem {line : String} (h : '\n' ∉ line.toList) :
    ofText line = if line = "" then [] else [line] := by
  by_cases hline : line = ""
  · rw [if_pos hline, hline]
    rfl
  · have hne : line.toList ≠ [] := by simpa using hline
    rw [if_neg hline, ofText, split_of_notMem hne h, List.map_singleton,
      String.ofList_toList]

/-- Lines without a line feed come back without their final carriage return, but
the last as it is, if there is anything of it. -/
theorem ofText_intercalate {init : List String} {last : String}
    (hinit : ∀ line ∈ init, '\n' ∉ line.toList) (hlast : '\n' ∉ last.toList) :
    ofText ("\n".intercalate (init ++ [last])) =
      init.map withoutReturn ++ if last = "" then [] else [last] := by
  rw [intercalate_concat, ofText_append (closed_toText init),
    ofText_toText hinit, ofText_of_notMem hlast]

theorem withoutReturn_append (line : String) :
    withoutReturn (line ++ "\r") = line := by
  have hlist : (line ++ "\r").toList = line.toList ++ ['\r'] := by simp
  rw [withoutReturn, hlist, dropReturn_concat, String.ofList_toList]

/-- Lines that do not end with a carriage return are read back as they are. -/
theorem map_withoutReturn {lines : List String}
    (h : ∀ line ∈ lines, line.toList.getLast? ≠ some '\r') :
    lines.map withoutReturn = lines := by
  rw [List.map_congr_left fun line hline => withoutReturn_of_ne (h line hline),
    List.map_id']

end Lines

/-! ## The verdict on it -/

namespace Order

variable {o : Order} {g : Greeting}

theorem ofText_modelAnswer {init : List String} {last : String}
    (hexpected : o.expected g = init ++ [last])
    (hlf : ∀ line ∈ o.expected g, '\n' ∉ line.toList) :
    Lines.ofText (o.modelAnswer g) =
      init.map Lines.withoutReturn ++ if last = "" then [] else [last] := by
  rw [hexpected, List.forall_mem_append, List.forall_mem_singleton] at hlf
  rw [modelAnswer, hexpected, Lines.ofText_intercalate hlf.1 hlf.2]

/-- A line before the last that ends with a carriage return comes back without
it. -/
theorem mark_modelAnswer_of_return {before after : List String} {line : String}
    (hlf : ∀ line ∈ o.expected g, '\n' ∉ line.toList)
    (hexpected : o.expected g = before ++ (line ++ "\r") :: after)
    (hafter : after ≠ [])
    (hbefore : ∀ line ∈ before, line.toList.getLast? ≠ some '\r') :
    o.mark g (o.modelAnswer g) =
      .error (.mismatch (before.length + 1) (line ++ "\r") line) := by
  rcases List.eq_nil_or_concat' after with rfl | ⟨init, last, rfl⟩
  · exact absurd rfl hafter
  · have hwhole : o.expected g =
        (before ++ (line ++ "\r") :: init) ++ [last] := by
      rw [hexpected, List.append_assoc, List.cons_append]
    have hlines := ofText_modelAnswer hwhole hlf
    rw [List.map_append, List.map_cons, Lines.map_withoutReturn hbefore,
      Lines.withoutReturn_append, List.append_assoc, List.cons_append] at hlines
    rw [mark_of_split hexpected hlines (by simp [StartApart]),
      Judge.verdictAfter]

/-- Where no carriage return is lost, only an empty last line is. -/
theorem mark_modelAnswer_of_no_return
    (hlf : ∀ line ∈ o.expected g, '\n' ∉ line.toList)
    (hinit : ∀ line ∈ (o.expected g).dropLast,
      line.toList.getLast? ≠ some '\r') :
    o.mark g (o.modelAnswer g) =
      if (o.expected g).getLast? = some "" then
        .error (.missingLines o.size (o.size - 1))
      else .ok () := by
  rcases List.eq_nil_or_concat' (o.expected g) with
    hnil | ⟨init, last, hexpected⟩
  · -- with nothing expected, nothing is joined
    have hlines : Lines.ofText (o.modelAnswer g) = [] := by
      rw [modelAnswer, hnil]
      rfl
    rw [hnil, if_neg (by simp)]
    exact mark_eq_ok_iff.mpr ⟨0, by simp [hlines, hnil]⟩
  · have hlines := ofText_modelAnswer hexpected hlf
    rw [hexpected, List.dropLast_concat] at hinit
    rw [Lines.map_withoutReturn hinit] at hlines
    simp only [hexpected, List.getLast?_concat, Option.some_inj]
    by_cases hlast : last = ""
    · rw [if_pos hlast] at hlines ⊢
      have hsize : o.size = init.length + 1 :=
        size_of_expected hexpected
      rw [mark_of_split hexpected hlines (by simp [StartApart]), hsize]
      rfl
    · rw [if_neg hlast, ← hexpected] at hlines
      rw [if_neg hlast]
      exact mark_eq_ok_iff.mpr ⟨0, by simp [hlines]⟩

/-- **What becomes of the model answer.** With a line feed in a line expected it
is never accepted. Without one, it fails at the first line before the last that
ends with a carriage return; if there is none, it misses the last line where
that is empty, and else it is accepted. So it is accepted for every seed, if no
name of the pool makes a line that is empty, ends with a carriage return or
holds a line feed. -/
theorem mark_modelAnswer (o : Order) (g : Greeting) :
    ((∃ line ∈ o.expected g, '\n' ∈ line.toList) →
      o.mark g (o.modelAnswer g) ≠ .ok ()) ∧
    ((∀ line ∈ o.expected g, '\n' ∉ line.toList) →
      (∀ before line after, o.expected g = before ++ (line ++ "\r") :: after →
        after ≠ [] → (∀ line ∈ before, line.toList.getLast? ≠ some '\r') →
        o.mark g (o.modelAnswer g) =
          .error (.mismatch (before.length + 1) (line ++ "\r") line)) ∧
      ((∀ line ∈ (o.expected g).dropLast, line.toList.getLast? ≠ some '\r') →
        o.mark g (o.modelAnswer g) =
          if (o.expected g).getLast? = some "" then
            .error (.missingLines o.size (o.size - 1))
          else .ok ())) ∧
    ∀ (seed : Seed) (pool : Pool),
      (∀ name ∈ pool.names, '\n' ∉ (g.greet name).toList ∧
        (g.greet name).toList.getLast? ≠ some '\r' ∧ g.greet name ≠ "") →
      ∃ order, ofSeed seed pool = .ok order ∧
        order.mark g (order.modelAnswer g) = .ok () := by
  refine ⟨?_, ?_, ?_⟩
  · rintro ⟨line, hline, hlf⟩ hok
    exact notMem_of_mark_ok hok line hline hlf
  · intro hlf
    constructor
    · intro before line after hexpected hafter hbefore
      exact mark_modelAnswer_of_return hlf hexpected hafter hbefore
    · intro hinit
      exact mark_modelAnswer_of_no_return hlf hinit
  · intro seed pool hpool
    obtain ⟨order, horder, hperm⟩ := exists_ofSeed seed pool
    have hline : ∀ line ∈ order.expected g, '\n' ∉ line.toList ∧
        line.toList.getLast? ≠ some '\r' ∧ line ≠ "" := by
      intro line hline
      obtain ⟨name, hname, rfl⟩ := List.mem_map.mp hline
      exact hpool name (hperm.subset hname)
    refine ⟨order, horder, ?_⟩
    rw [mark_modelAnswer_of_no_return, if_neg]
    · intro hlast
      exact (hline "" (List.mem_of_getLast? hlast)).2.2 rfl
    · intro line hmem
      exact (hline line hmem).1
    · intro line hmem
      exact (hline line ((List.dropLast_sublist _).mem hmem)).2.1

example :
    let o : Order := ⟨["Ann\r", "Bob\r"]⟩
    o.mark ⟨"", ""⟩ (o.modelAnswer ⟨"", ""⟩) =
      .error (.mismatch 1 "Ann\r" "Ann") := by decide

end Order

end RollCall

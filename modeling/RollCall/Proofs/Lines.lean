import Mathlib.Data.List.Basic
import RollCall.Text.Lines

/-!
# Lines read backwards

Reading cuts a list into lines. `Written` says from the other side which lists
hold given lines: each line comes with an ending, and only the last may go
without. `split_eq_iff` makes the two one, so a fact about the lines of a list
is proved by induction on how the list is written, without a look at the
pieces that reading makes on the way.
-/

namespace RollCall.Lines

variable {α : Type} {lf cr : α}

/-! ## What a list of lines may look like -/

/-- What may end a line. A line feed on its own would take a final carriage
return of the line with it. -/
inductive Ending (lf cr : α) (l : List α) : List α → Prop
  | lineFeed (hcr : l.getLast? ≠ some cr) : Ending lf cr l [lf]
  | pair : Ending lf cr l [cr, lf]

/-- A list that holds these lines. A line without ending is the last one and
is not empty. -/
inductive Written (lf cr : α) : List (List α) → List α → Prop
  | nil : Written lf cr [] []
  | last {l : List α} (hne : l ≠ []) (hlf : lf ∉ l) : Written lf cr [l] l
  | line {l t r : List α} {ls : List (List α)} (hlf : lf ∉ l)
      (ht : Ending lf cr l t) (hr : Written lf cr ls r) :
      Written lf cr (l :: ls) (l ++ t ++ r)

theorem Written.notMem {ls : List (List α)} {xs : List α}
    (h : Written lf cr ls xs) : ∀ l ∈ ls, lf ∉ l := by
  induction h with
  | nil => simp
  | last _ hlf => simpa using hlf
  | line hlf _ _ ih =>
      intro l hl
      rcases List.mem_cons.mp hl with rfl | hl
      · exact hlf
      · exact ih l hl

/-- A list is empty, or has no line feed, or starts with a line and its line
feed. -/
@[elab_as_elim]
theorem lines_induction {P : List α → Prop} (lf : α) (nil : P [])
    (last : ∀ l, l ≠ [] → lf ∉ l → P l)
    (line : ∀ l r, lf ∉ l → P r → P (l ++ lf :: r)) (xs : List α) : P xs := by
  induction hn : xs.length using Nat.strongRecOn generalizing xs with
  | _ n ih =>
      by_cases hlf : lf ∈ xs
      · -- at the first line feed, so that none is left in the line
        obtain ⟨l, r, rfl, hl⟩ := List.eq_append_cons_of_mem hlf
        apply line l r hl
        refine ih r.length ?_ r rfl
        simp only [List.length_append, List.length_cons] at hn
        omega
      · by_cases hne : xs = []
        · exact hne ▸ nil
        · exact last xs hne hlf

/-! ## The pieces of a list -/

variable [DecidableEq α]

theorem attach_self (stop : α) (later : List (List α)) :
    attach stop stop later = [stop] :: later := by
  unfold attach
  rw [if_pos rfl]

theorem attach_of_ne {stop x : α} (hx : x ≠ stop) (piece : List α)
    (later : List (List α)) :
    attach stop x (piece :: later) = (x :: piece) :: later := by
  rw [attach, if_neg hx]

theorem pieces_append_cons {stop : α} {l : List α} (hl : stop ∉ l)
    (r : List α) :
    pieces stop (l ++ stop :: r) = (l ++ [stop]) :: pieces stop r := by
  induction l with
  | nil => rw [List.nil_append, pieces_cons, attach_self, List.nil_append]
  | cons x l ih =>
      rw [List.mem_cons, not_or] at hl
      rw [List.cons_append, pieces_cons, ih hl.2, attach_of_ne (Ne.symm hl.1)]
      rfl

theorem pieces_of_notMem {stop : α} {l : List α} (hne : l ≠ [])
    (hl : stop ∉ l) : pieces stop l = [l] := by
  induction l with
  | nil => exact absurd rfl hne
  | cons x l ih =>
      rw [List.mem_cons, not_or] at hl
      rw [pieces_cons]
      by_cases hrest : l = []
      · rw [hrest, pieces_nil, attach, if_neg (Ne.symm hl.1)]
      · rw [ih hrest hl.2, attach_of_ne (Ne.symm hl.1)]

/-! ## Lines, one after another -/

theorem chomp_of_notMem {l : List α} (hl : lf ∉ l) : chomp lf cr l = l := by
  rw [chomp, if_neg]
  intro hlast
  exact hl (List.mem_of_getLast? hlast)

/-- What the line feed after a line leaves of it. -/
def dropReturn (cr : α) (l : List α) : List α :=
  if l.getLast? = some cr then l.dropLast else l

theorem dropReturn_of_ne {l : List α} (h : l.getLast? ≠ some cr) :
    dropReturn cr l = l := by
  rw [dropReturn, if_neg h]

@[simp] theorem dropReturn_concat (l : List α) :
    dropReturn cr (l ++ [cr]) = l := by
  simp [dropReturn]

theorem mem_of_mem_dropReturn {x : α} {l : List α}
    (h : x ∈ dropReturn cr l) : x ∈ l := by
  unfold dropReturn at h
  split at h
  · exact (List.dropLast_sublist l).mem h
  · exact h

theorem chomp_line (l : List α) :
    chomp lf cr (l ++ [lf]) = dropReturn cr l := by
  simp [chomp, dropReturn]

theorem split_of_notMem {l : List α} (hne : l ≠ []) (hl : lf ∉ l) :
    split lf cr l = [l] := by
  rw [split, pieces_of_notMem hne hl, List.map_singleton, chomp_of_notMem hl]

theorem split_append_cons {l : List α} (hl : lf ∉ l) (r : List α) :
    split lf cr (l ++ lf :: r) = dropReturn cr l :: split lf cr r := by
  rw [split, pieces_append_cons hl, List.map_cons, chomp_line]
  rfl

/-- A line with an ending is read as that line. -/
theorem split_line (hne : lf ≠ cr) {l t : List α} (hlf : lf ∉ l)
    (ht : Ending lf cr l t) (r : List α) :
    split lf cr (l ++ t ++ r) = l :: split lf cr r := by
  cases ht with
  | lineFeed hcr =>
      rw [List.append_assoc, List.singleton_append, split_append_cons hlf,
        dropReturn_of_ne hcr]
  | pair =>
      -- the line feed ends `l` and its carriage return together
      have hl : lf ∉ l ++ [cr] := by simp [hlf, hne]
      have hassoc : l ++ [cr, lf] ++ r = (l ++ [cr]) ++ lf :: r := by simp
      rw [hassoc, split_append_cons hl, dropReturn_concat]

theorem split_eq_of_written (hne : lf ≠ cr) {ls : List (List α)} {xs : List α}
    (h : Written lf cr ls xs) : split lf cr xs = ls := by
  induction h with
  | nil => rfl
  | last hl hlf => exact split_of_notMem hl hlf
  | line hlf ht _ ih => rw [split_line hne hlf ht, ih]

theorem written_split (lf cr : α) (xs : List α) :
    Written lf cr (split lf cr xs) xs := by
  induction xs using lines_induction lf with
  | nil => exact .nil
  | last l hne hlf =>
      rw [split_of_notMem hne hlf]
      exact .last hne hlf
  | line l r hlf ih =>
      rw [split_append_cons hlf]
      by_cases hcr : l.getLast? = some cr
      · -- the carriage return goes from the line to its ending
        obtain ⟨body, rfl⟩ := List.getLast?_eq_some_iff.mp hcr
        rw [dropReturn_concat]
        have hbody : lf ∉ body := fun hmem => hlf (by simp [hmem])
        simpa using Written.line hbody .pair ih
      · rw [dropReturn_of_ne hcr]
        simpa using Written.line hlf (.lineFeed hcr) ih

/-- **Reading inverted.** A list is cut into given lines exactly if it is one
of the ways to write them. -/
theorem split_eq_iff (hne : lf ≠ cr) {ls : List (List α)} {xs : List α} :
    split lf cr xs = ls ↔ Written lf cr ls xs := by
  constructor
  · rintro rfl
    exact written_split lf cr xs
  · exact split_eq_of_written hne

/-! ## The lines of a text -/

theorem ofText_eq_iff {lines : List String} {text : String} :
    ofText text = lines ↔
      Written '\n' '\r' (lines.map String.toList) text.toList := by
  rw [← split_eq_iff (by decide), ofText]
  constructor
  · rintro rfl
    rw [List.map_map]
    exact (List.map_id'' (fun _ => String.toList_ofList) _).symm
  · intro h
    rw [h, List.map_map]
    exact List.map_id'' (fun _ => String.ofList_toList) _

/-- The text of some lines, with a line feed after each. -/
def toText (lines : List String) : String :=
  String.join (lines.map (· ++ "\n"))

/-- What a line feed after a line leaves of it. -/
def withoutReturn (line : String) : String :=
  String.ofList (dropReturn '\r' line.toList)

theorem withoutReturn_of_ne {line : String}
    (h : line.toList.getLast? ≠ some '\r') : withoutReturn line = line := by
  rw [withoutReturn, dropReturn_of_ne h, String.ofList_toList]

theorem split_flatMap {ls : List (List α)} (h : ∀ l ∈ ls, lf ∉ l) :
    split lf cr (ls.flatMap (· ++ [lf])) = ls.map (dropReturn cr) := by
  induction ls with
  | nil => rfl
  | cons l ls ih =>
      rw [List.forall_mem_cons] at h
      rw [List.flatMap_cons, List.append_assoc, List.singleton_append,
        split_append_cons h.1, ih h.2, List.map_cons]

theorem toList_toText (lines : List String) :
    (toText lines).toList =
      (lines.map String.toList).flatMap (· ++ ['\n']) := by
  simp [toText, String.toList_join, List.flatMap_map]

/-- Reading back lines that hold no line feed costs each its final carriage
return. -/
theorem ofText_toText {lines : List String}
    (h : ∀ line ∈ lines, '\n' ∉ line.toList) :
    ofText (toText lines) = lines.map withoutReturn := by
  rw [ofText, toList_toText, split_flatMap (by simpa using h), List.map_map,
    List.map_map]
  rfl

end RollCall.Lines

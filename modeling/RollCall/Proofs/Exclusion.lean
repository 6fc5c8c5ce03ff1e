import RollCall.Proofs.Lines
import RollCall.Proofs.Marking

/-!
# An answer for one order only

Two orders of a pool expect as many lines as each other, and a greeting tells
two names apart (`greet_injective`). So the lines that one order accepts leave
no choice of another (`eq_of_mark_ok`). An answer made for one order fails the
other where the orders first differ, and that is never their last place: what
is left of two orders that have agreed so far are the same names, so a single
one would be the same on both sides (`exists_first_difference`).
-/

namespace RollCall

/-! ## Where two orders differ -/

section difference

variable {α : Type} {common xs ys : List α} {x y : α}

/-- Two arrangements of the same elements differ before the last of them. -/
theorem exists_first_difference [DecidableEq α] (hperm : xs.Perm ys)
    (hne : xs ≠ ys) :
    ∃ common x y xs' ys', xs = common ++ x :: xs' ∧ ys = common ++ y :: ys' ∧
      x ≠ y ∧ xs' ≠ [] := by
  obtain ⟨common, xs, ys, rfl, rfl, happart⟩ := exists_common xs ys
  rw [List.perm_append_left_iff] at hperm
  cases xs with
  | nil =>
      rw [hperm.nil_eq] at hne
      exact absurd rfl hne
  | cons x xs' =>
      cases ys with
      | nil => exact absurd hperm.eq_nil (List.cons_ne_nil x xs')
      | cons y ys' =>
          have hxy : x ≠ y := by simpa [StartApart, eq_comm] using happart
          refine ⟨common, x, y, xs', ys', rfl, rfl, hxy, ?_⟩
          rintro rfl
          have hlast := List.perm_singleton.mp hperm.symm
          exact hxy (List.cons.inj hlast).1.symm

theorem isLeast_difference (h : x ≠ y) :
    IsLeast {i | (common ++ x :: xs)[i]? ≠ (common ++ y :: ys)[i]?}
      common.length := by
  constructor
  · simpa using h
  · intro i hi
    by_contra hlt
    rw [Nat.not_le] at hlt
    apply hi
    rw [List.getElem?_append_left hlt, List.getElem?_append_left hlt]

end difference

/-! ## What a greeting tells apart -/

theorem Greeting.greet_injective (g : Greeting) :
    Function.Injective g.greet := by
  intro name name' h
  have hlist := congrArg String.toList h
  simp only [greet, String.toList_append, List.append_cancel_right_eq,
    List.append_cancel_left_eq] at hlist
  exact String.toList_inj.mp hlist

theorem Order.expected_injective (g : Greeting) :
    Function.Injective fun o : Order => o.expected g := by
  rintro ⟨names⟩ ⟨names'⟩ h
  exact congrArg Order.mk (List.map_injective_iff.mpr g.greet_injective h)

/-- Orders that expect equally many lines accept no text in common. -/
theorem Order.eq_of_mark_ok {o₁ o₂ : Order} {g : Greeting} {text : String}
    (hsize : o₁.size = o₂.size) (h₁ : o₁.mark g text = .ok ())
    (h₂ : o₂.mark g text = .ok ()) : o₁ = o₂ := by
  obtain ⟨count₁, hlines₁⟩ := mark_eq_ok_iff.mp h₁
  obtain ⟨count₂, hlines₂⟩ := mark_eq_ok_iff.mp h₂
  have hlength : (o₁.expected g).length = (o₂.expected g).length := by
    rw [length_expected, length_expected, hsize]
  -- blank lines cannot stand in for lines expected: both expect as many
  have happend := hlines₁.symm.trans hlines₂
  exact expected_injective g (List.append_inj happend hlength).1

/-! ## An answer to another order -/

namespace Lines

/-- Lines with an ending each, as a text. -/
def withEndings (lines endings : List String) : String :=
  String.join (List.zipWith (· ++ ·) lines endings)

theorem withEndings_cons (line ending : String) (lines endings : List String) :
    withEndings (line :: lines) (ending :: endings) =
      line ++ ending ++ withEndings lines endings := by
  simp [withEndings]

/-- Any mix of the two endings is read back, if no line holds a line feed or
stops with a carriage return. -/
theorem ofText_withEndings {lines endings : List String}
    (hlength : endings.length = lines.length)
    (hlines : ∀ line ∈ lines, '\n' ∉ line.toList ∧
      line.toList.getLast? ≠ some '\r')
    (hendings : ∀ ending ∈ endings, ending = "\n" ∨ ending = "\r\n") :
    ofText (withEndings lines endings) = lines := by
  rw [ofText_eq_iff]
  induction lines generalizing endings with
  | nil =>
      rw [List.length_eq_zero_iff.mp hlength]
      exact .nil
  | cons line lines ih =>
      obtain ⟨ending, endings, rfl⟩ :=
        List.exists_cons_of_length_eq_add_one hlength
      rw [List.forall_mem_cons] at hlines hendings
      have hrest := ih (by simpa using hlength) hlines.2 hendings.2
      have hending : Ending '\n' '\r' line.toList ending.toList := by
        rcases hendings.1 with rfl | rfl
        · exact .lineFeed hlines.1.2
        · exact .pair
      rw [withEndings_cons, String.toList_append, String.toList_append]
      exact .line hlines.1.1 hending hrest

end Lines

namespace Order

variable {o₁ o₂ : Order} {g : Greeting} {text : String}

/-- The lines of another order fail at the first name that differs. -/
theorem mark_of_first_difference {common xs ys : List String} {x y : String}
    (h₁ : o₁.names = common ++ x :: xs) (h₂ : o₂.names = common ++ y :: ys)
    (hxy : x ≠ y) (hlines : Lines.ofText text = o₁.expected g) :
    o₂.mark g text =
      .error (.mismatch (common.length + 1) (g.greet y) (g.greet x)) := by
  have hgiven : Lines.ofText text =
      common.map g.greet ++ g.greet x :: xs.map g.greet := by
    simp [hlines, expected, h₁]
  have hexpected : o₂.expected g =
      common.map g.greet ++ g.greet y :: ys.map g.greet := by
    simp [expected, h₂]
  have happart : StartApart (g.greet x :: xs.map g.greet)
      (g.greet y :: ys.map g.greet) := by
    simpa [StartApart] using g.greet_injective.ne hxy.symm
  rw [mark_of_split hexpected hgiven happart, Judge.verdictAfter,
    List.length_map]

/-- **An answer passes for one order only.** No text is accepted for two orders
of a pool. If the greetings can be read back at all, those of one order, with
any mix of line endings, are accepted for it, and for any other order they fail
where the two first differ, which is before their last place. -/
theorem mark_excludes {p : Pool} (h₁ : o₁.names.Perm p.names)
    (h₂ : o₂.names.Perm p.names) (g : Greeting) :
    (∀ text, o₁.mark g text = .ok () → o₂.mark g text = .ok () → o₁ = o₂) ∧
      ((∀ name ∈ p.names, '\n' ∉ (g.greet name).toList ∧
          (g.greet name).toList.getLast? ≠ some '\r') →
        ∀ endings : List String, endings.length = p.size →
          (∀ ending ∈ endings, ending = "\n" ∨ ending = "\r\n") →
          let text := Lines.withEndings (o₁.expected g) endings
          (o₁ = o₂ → o₂.mark g text = .ok ()) ∧
          (o₁ ≠ o₂ → ∃ k name₁ name₂,
            IsLeast {i | o₁.get? i ≠ o₂.get? i} k ∧
              o₁.get? k = some name₁ ∧ o₂.get? k = some name₂ ∧
              o₂.mark g text = .error
                (.mismatch (k + 1) (g.greet name₂) (g.greet name₁)) ∧
              k + 1 ≤ p.size - 1)) := by
  have hsize₁ : o₁.size = p.size := h₁.length_eq
  have hsize₂ : o₂.size = p.size := h₂.length_eq
  refine ⟨fun text => eq_of_mark_ok (hsize₁.trans hsize₂.symm), ?_⟩
  intro hnames endings hlength hendings text
  have hlines : Lines.ofText text = o₁.expected g := by
    apply Lines.ofText_withEndings _ _ hendings
    · rw [length_expected, hsize₁, hlength]
    · intro line hline
      obtain ⟨name, hname, rfl⟩ := List.mem_map.mp hline
      exact hnames name (h₁.subset hname)
  constructor
  · rintro rfl
    exact mark_eq_ok_iff.mpr ⟨0, by simp [hlines]⟩
  · intro hne
    have hne' : o₁.names ≠ o₂.names := fun heq =>
      hne (congrArg Order.mk heq)
    obtain ⟨common, x, y, xs, ys, hx, hy, hxy, hrest⟩ :=
      exists_first_difference (h₁.trans h₂.symm) hne'
    have hmark := mark_of_first_difference hx hy hxy hlines
    refine ⟨common.length, x, y, ?_, ?_, ?_, hmark, ?_⟩
    · simp only [get?, hx, hy]
      exact isLeast_difference hxy
    · simp [get?, hx]
    · simp [get?, hy]
    · have hsplit : p.size = common.length + (xs.length + 1) := by
        rw [← hsize₁, size, hx, List.length_append, List.length_cons]
      have hpos := List.length_pos_iff.mpr hrest
      omega

/-- Three names, one of them empty, greeted with nothing: two orders that
differ from the second place on. -/
theorem mark_excludes_empty_line :
    let p : Pool := ⟨["", "a", "b"], by decide, by decide⟩
    let o₁ : Order := ⟨["a", "", "b"]⟩
    let o₂ : Order := ⟨["a", "b", ""]⟩
    let g : Greeting := ⟨"", ""⟩
    (o₁.names.Perm p.names ∧ o₂.names.Perm p.names) ∧
      (o₁.mark g "a\r\n\nb" ≠ .ok () ∨ o₂.mark g "a\r\n\nb" ≠ .ok ()) ∧
      o₂.mark g "a\r\n\nb\n" = .error (.mismatch 2 "b" "") := by
  intro p o₁ o₂ g
  have h₁ : o₁.names.Perm p.names := by decide
  have h₂ : o₂.names.Perm p.names := by decide
  have hne : o₁ ≠ o₂ := by decide
  obtain ⟨hone, hother⟩ := mark_excludes h₁ h₂ g
  refine ⟨⟨h₁, h₂⟩, ?_, ?_⟩
  · by_contra! hboth
    exact hne (hone _ hboth.1 hboth.2)
  · obtain ⟨-, hdiffer⟩ :=
      hother (by decide) ["\r\n", "\n", "\n"] rfl (by decide)
    obtain ⟨k, x, y, hk, hx, hy, hmark, -⟩ := hdiffer hne
    have hfirst : IsLeast {i | o₁.get? i ≠ o₂.get? i} 1 :=
      @isLeast_difference _ ["a"] ["b"] [""] "" "b" (by decide)
    obtain rfl : k = 1 := hk.unique hfirst
    cases hx
    cases hy
    exact hmark

end Order

end RollCall

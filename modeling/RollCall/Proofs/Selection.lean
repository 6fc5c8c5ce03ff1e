import Mathlib.Data.List.Perm.Basic
import Mathlib.Tactic.Ring
import Mathlib.Tactic.SplitIfs
import RollCall.Order

/-!
# Selection never fails

A draw lands below the length it was asked for (`drawBelow_inRange`). So taking
names out one by one at the places drawn runs to its end, whatever the words
are, and what comes out is the pool in some order (`exists_select`). The bound
is that of a draw with twice the bits, `Width.exact`, which a draw never
exceeds.
-/

namespace RollCall

/-! ## One draw -/

namespace Width

variable {σ : Type} [WordSource σ]

theorem span_pos (w : Width) : 0 < w.span := by
  cases w <;> decide

theorem number_lt (w : Width) (s : σ) : (w.number s).1 < w.span := by
  have hlow := (WordSource.next s).1.toNat_lt
  have hhigh := (WordSource.next (WordSource.next s).2).1.toNat_lt
  cases w with
  | narrow => exact hlow
  | wide =>
      simp only [number, span, bits, Nat.one_shiftLeft]
      omega

/-- What a draw would give if it always took two numbers and multiplied them
out as one. -/
def exact (w : Width) (len : ℕ) (s : σ) : ℕ :=
  let x := w.number s
  let y := w.number x.2
  (x.1 * w.span + y.1) * len / (w.span * w.span)

/-- The long product, one number at a time. -/
theorem div_span_eq {B : ℕ} (hB : 0 < B) (x y len : ℕ) :
    (x * B + y) * len / (B * B) =
      x * len / B + (x * len % B + y * len / B) / B := by
  have hsplit : (x * B + y) * len = y * len + B * (x * len) := by ring
  have hdigits : y * len / B + x * len =
      x * len % B + y * len / B + B * (x * len / B) := by
    have := Nat.div_add_mod (x * len) B
    omega
  -- the digits above the lowest, one division after the other
  rw [← Nat.div_div_eq_div_mul, hsplit, Nat.add_mul_div_left _ _ hB, hdigits,
    Nat.add_mul_div_left _ _ hB, Nat.add_comm]

/-- The number that two numbers make, scaled down to a length. -/
def product (w : Width) (len x y : ℕ) : ℕ :=
  (x * w.span + y) * len / (w.span * w.span)

theorem exact_eq (w : Width) (len : ℕ) (s : σ) :
    w.exact len s =
      w.product len (w.number s).1 (w.number (w.number s).2).1 := rfl

/-- Two numbers are the digits of one with twice the bits. -/
theorem digits_lt (w : Width) {x y : ℕ} (hx : x < w.span) (hy : y < w.span) :
    x * w.span + y < w.span * w.span :=
  calc
    x * w.span + y < x * w.span + w.span := Nat.add_lt_add_left hy _
    _ = (x + 1) * w.span := (Nat.succ_mul _ _).symm
    _ ≤ w.span * w.span := Nat.mul_le_mul_right _ hx

theorem product_lt (w : Width) {len x y : ℕ} (hlen : 0 < len)
    (hx : x < w.span) (hy : y < w.span) : w.product len x y < len := by
  have hpos := Nat.mul_pos w.span_pos w.span_pos
  rw [product, Nat.div_lt_iff_lt_mul hpos, Nat.mul_comm]
  exact Nat.mul_lt_mul_of_pos_left (w.digits_lt hx hy) hlen

theorem exact_lt (w : Width) {len : ℕ} (hlen : 0 < len) (s : σ) :
    w.exact len s < len :=
  w.product_lt hlen (w.number_lt s) (w.number_lt (w.number s).2)

theorem scale_le_exact (w : Width) (len : ℕ) (s : σ) :
    (w.scale len s).1 ≤ w.exact len s := by
  rw [exact, div_span_eq w.span_pos]
  simp only [scale]
  split_ifs with hmore hcarry
  · -- the carry is in the long product too
    have := (Nat.one_le_div_iff w.span_pos).mpr hcarry
    omega
  · exact Nat.le_add_right _ _
  · exact Nat.le_add_right _ _

theorem scale_lt (w : Width) {len : ℕ} (hlen : 0 < len) (s : σ) :
    (w.scale len s).1 < len :=
  Nat.lt_of_le_of_lt (w.scale_le_exact len s) (w.exact_lt hlen s)

end Width

/-- A way to draw that always answers, with a place below the length. -/
def InRange {σ : Type} (draw : ℕ → σ → Except Fault (ℕ × σ)) : Prop :=
  ∀ len s, 0 < len → ∃ i t, draw len s = .ok (i, t) ∧ i < len

theorem drawBelow_inRange {σ : Type} [WordSource σ] :
    InRange (drawBelow (σ := σ)) := by
  intro len s hlen
  have hdraw : drawBelow len s = .ok ((Width.ofLength len).scale len s) := by
    rw [drawBelow, if_neg (Nat.ne_of_gt hlen)]
  exact ⟨_, _, hdraw, (Width.ofLength len).scale_lt hlen s⟩

/-! ## All draws of a selection -/

section select

variable {α σ : Type} {draw : ℕ → σ → Except Fault (ℕ × σ)}

/-- One round: the element at the place drawn comes first, and the rest of the
selection, with its faults, is that of the elements left. -/
theorem select_round {xs : List α} {s t : σ} {i : ℕ} (hi : i < xs.length)
    (hdraw : draw xs.length s = .ok (i, t)) :
    select draw xs s =
      (select draw (xs.eraseIdx i) t).map fun out => (xs[i] :: out.1, out.2) := by
  cases xs with
  | nil => simp at hi
  | cons x xs =>
      rw [select, hdraw]
      simp only [dif_pos hi]
      cases select draw ((x :: xs).eraseIdx i) t <;> rfl

theorem select_of_draw {xs ys : List α} {s t u : σ} {i : ℕ}
    (hi : i < xs.length) (hdraw : draw xs.length s = .ok (i, t))
    (hrest : select draw (xs.eraseIdx i) t = .ok (ys, u)) :
    select draw xs s = .ok (xs[i] :: ys, u) := by
  rw [select_round hi hdraw, hrest]
  rfl

theorem length_eraseIdx_add_one {xs : List α} {i : ℕ} (hi : i < xs.length) :
    (xs.eraseIdx i).length + 1 = xs.length := by
  rw [List.length_eraseIdx_of_lt hi]
  omega

theorem exists_select (hdraw : InRange draw) (xs : List α) (s : σ) :
    ∃ ys t, select draw xs s = .ok (ys, t) ∧ ys.Perm xs := by
  induction hn : xs.length generalizing xs s with
  | zero =>
      rw [List.length_eq_zero_iff.mp hn]
      exact ⟨[], s, by rw [select], .nil⟩
  | succ n ih =>
      obtain ⟨i, t, hi, hlt⟩ := hdraw xs.length s (by omega)
      have hlen := length_eraseIdx_add_one hlt
      obtain ⟨ys, u, hrest, hperm⟩ := ih (xs.eraseIdx i) t (by omega)
      refine ⟨xs[i] :: ys, u, select_of_draw hlt hi hrest, ?_⟩
      exact (hperm.cons _).trans (List.getElem_cons_eraseIdx_perm hlt)

end select

/-! ## Orders -/

theorem Pool.shuffle_eq_ok_iff {σ : Type} [WordSource σ] {p : Pool}
    {names : List String} {s t : σ} :
    p.shuffle s = .ok (⟨names⟩, t) ↔
      select drawBelow p.names s = .ok (names, t) := by
  rw [shuffle]
  cases select drawBelow p.names s with
  | error fault => simp [Except.map]
  | ok drawn => simp [Except.map, Prod.ext_iff]

theorem Pool.exists_shuffle {σ : Type} [WordSource σ] (p : Pool) (s : σ) :
    ∃ o t, p.shuffle s = .ok (o, t) ∧ o.names.Perm p.names := by
  obtain ⟨names, t, hselect, hperm⟩ :=
    exists_select drawBelow_inRange p.names s
  exact ⟨⟨names⟩, t, shuffle_eq_ok_iff.mpr hselect, hperm⟩

theorem Order.ofSeed_eq_of_shuffle {seed : Seed} {p : Pool} {o : Order}
    {t : Keystream} (h : p.shuffle (Keystream.ofSeed seed) = .ok (o, t)) :
    ofSeed seed p = .ok o := by
  rw [ofSeed, h]
  rfl

/-- Every seed names an order of every pool. -/
theorem Order.exists_ofSeed (seed : Seed) (pool : Pool) :
    ∃ o, ofSeed seed pool = .ok o ∧ o.names.Perm pool.names := by
  obtain ⟨o, t, hshuffle, hperm⟩ :=
    pool.exists_shuffle (Keystream.ofSeed seed)
  exact ⟨o, ofSeed_eq_of_shuffle hshuffle, hperm⟩

theorem Order.names_perm_of_ofSeed {seed : Seed} {pool : Pool} {o : Order}
    (h : ofSeed seed pool = .ok o) : o.names.Perm pool.names := by
  obtain ⟨o', h', hperm⟩ := exists_ofSeed seed pool
  cases h.symm.trans h'
  exact hperm

end RollCall

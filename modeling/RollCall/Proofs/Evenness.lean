import RollCall.Proofs.Fairness

/-!
# How even a draw is

Let both numbers of a draw be laid out before it, whether it takes the second or
not. Of all such pairs each place gets its share: they are the digits of one
long number (`ncard_pairs`), and of those an interval is scaled down to each
place, as long as any other but for rounding.
-/

namespace RollCall

open Finset

namespace Width

/-- The words that make a number, the low one first. -/
def words : Width → ℕ → List UInt32
  | narrow, x => [UInt32.ofNat x]
  | wide, x => [UInt32.ofNat x, UInt32.ofNat (x / 2 ^ 32)]

variable {w : Width} {len x y : ℕ}

/-- A number that is laid out is the next one, and its words are taken. -/
theorem number_words (hx : x < w.span) (rest : List UInt32) :
    w.number (Supply.holding (w.words x ++ rest)) = (x, .holding rest) := by
  cases w with
  | narrow =>
      have hvalue : (UInt32.ofNat x).toNat = x := by
        rw [UInt32.toNat_ofNat']
        exact Nat.mod_eq_of_lt hx
      exact congrArg (·, Supply.holding rest) hvalue
  | wide =>
      have hhigh : x / 2 ^ 32 < 2 ^ 32 := by
        rw [Nat.div_lt_iff_lt_mul (by decide)]
        exact hx
      have hvalue : (UInt32.ofNat (x / 2 ^ 32)).toNat * 2 ^ 32 +
          (UInt32.ofNat x).toNat = x := by
        rw [UInt32.toNat_ofNat', UInt32.toNat_ofNat', Nat.mod_eq_of_lt hhigh]
        exact Nat.div_add_mod' x (2 ^ 32)
      exact congrArg (·, Supply.holding rest) hvalue

end Width

/-- Of two numbers laid out, a draw takes no word beyond them. -/
theorem exists_drawBelow_words {len x y : ℕ} (hlen : 0 < len)
    (hmax : len < 2 ^ 64) :
    let w := Width.ofLength len
    x < w.span → y < w.span →
      ∃ left, drawBelow len (Supply.holding (w.words x ++ w.words y)) =
        .ok (w.product len x y, .holding left) := by
  intro w hx hy
  have hfirst := Width.number_words hx (w.words y)
  have hsecond : w.number (Supply.holding (w.words y)) =
      (y, .holding []) := by
    rw [← List.append_nil (w.words y), Width.number_words hy]
  have hexact : w.exact len (Supply.holding (w.words x ++ w.words y)) =
      w.product len x y := by
    rw [Width.exact, hfirst, hsecond]
    rfl
  rw [drawBelow_eq_exact hlen hmax, hexact, hfirst, hsecond]
  split_ifs
  · exact ⟨[], rfl⟩
  · exact ⟨w.words y, rfl⟩

/-! ## Counting the pairs -/

/-- The pairs of numbers that are scaled down to one place are as many as the
long numbers that they make. -/
theorem ncard_pairs (w : Width) (len i : ℕ) :
    {p : ℕ × ℕ | p.1 < w.span ∧ p.2 < w.span ∧
      w.product len p.1 p.2 = i}.ncard =
    #{z ∈ range (w.span * w.span) | z * len / (w.span * w.span) = i} := by
  have hpairs : {p : ℕ × ℕ | p.1 < w.span ∧ p.2 < w.span ∧
      w.product len p.1 p.2 = i} =
      ↑{p ∈ range w.span ×ˢ range w.span | w.product len p.1 p.2 = i} := by
    ext p
    simp [and_assoc]
  rw [hpairs, Set.ncard_coe_finset]
  -- a long number and its two digits
  apply card_nbij' (fun p => p.1 * w.span + p.2)
    (fun z => (z / w.span, z % w.span))
  · rintro ⟨x, y⟩ h
    simp only [coe_filter, mem_product, mem_range, Set.mem_ofPred_eq] at h ⊢
    obtain ⟨⟨hx, hy⟩, hplace⟩ := h
    exact ⟨w.digits_lt hx hy, hplace⟩
  · intro z h
    simp only [coe_filter, mem_product, mem_range, Set.mem_ofPred_eq] at h ⊢
    refine ⟨⟨Nat.div_lt_of_lt_mul h.1, Nat.mod_lt z w.span_pos⟩, ?_⟩
    rw [Width.product, Nat.div_add_mod']
    exact h.2
  · rintro ⟨x, y⟩ h
    simp only [coe_filter, mem_product, mem_range, Set.mem_ofPred_eq] at h
    obtain ⟨⟨-, hy⟩, -⟩ := h
    apply Prod.ext
    · show (x * w.span + y) / w.span = x
      rw [Nat.mul_comm, Nat.mul_add_div w.span_pos, Nat.div_eq_of_lt hy,
        Nat.add_zero]
    · show (x * w.span + y) % w.span = y
      rw [Nat.mul_add_mod', Nat.mod_eq_of_lt hy]
  · intro z _
    exact Nat.div_add_mod' z w.span

/-- The pairs of numbers, each laid out before the draw, that draw a place. -/
def drawnBy (len i : ℕ) : Set (ℕ × ℕ) :=
  let w := Width.ofLength len
  {p | p.1 < w.span ∧ p.2 < w.span ∧
    ∃ left, drawBelow len (Supply.holding (w.words p.1 ++ w.words p.2)) =
      .ok (i, .holding left)}

theorem ncard_drawnBy {len : ℕ} (hlen : 0 < len) (hmax : len < 2 ^ 64) (i : ℕ) :
    let N := (Width.ofLength len).span * (Width.ofLength len).span
    (drawnBy len i).ncard = #{z ∈ range N | z * len / N = i} := by
  intro N
  rw [← ncard_pairs]
  congr 1
  ext ⟨x, y⟩
  refine and_congr_right fun hx => and_congr_right fun hy => ?_
  obtain ⟨left, hdraw⟩ := exists_drawBelow_words hlen hmax hx hy
  rw [hdraw]
  simp

/-- **Every place gets its share.** A length has as many pairs of numbers for
each place as for any other, or one more: the pairs shared out evenly, rounded
down or up. -/
theorem ncard_drawnBy_even {len : ℕ} (hmax : len < 2 ^ 64) :
    (Width.ofLength len).bits = (if len < 2 ^ 32 then 32 else 64) ∧
      (∀ i < len,
        (drawnBy len i).ncard = 2 ^ (2 * (Width.ofLength len).bits) / len ∨
        (drawnBy len i).ncard = 2 ^ (2 * (Width.ofLength len).bits) ⌈/⌉ len) ∧
      ∀ i < len, ∀ j < len,
        (drawnBy len i).ncard ≤ (drawnBy len j).ncard + 1 := by
  set N := 2 ^ (2 * (Width.ofLength len).bits) with hN
  have hpos : 0 < N := Nat.two_pow_pos _
  have hshare : ∀ i < len,
      N / len ≤ (drawnBy len i).ncard ∧ (drawnBy len i).ncard ≤ N ⌈/⌉ len := by
    intro i hi
    rw [ncard_drawnBy (Nat.zero_lt_of_lt hi) hmax, Width.span_eq, ← pow_add,
      ← Nat.two_mul, ← hN]
    exact ⟨le_card_scaled hpos hi, card_scaled_le hpos hi⟩
  have hround : 0 < len → N ⌈/⌉ len ≤ N / len + 1 := by
    intro hlen
    rw [ceilDiv_le_iff_le_mul hlen]
    exact (Nat.lt_mul_div_succ _ hlen).le
  refine ⟨Width.bits_ofLength len, fun i hi => ?_, fun i hi j hj => ?_⟩
  · obtain ⟨hlow, hhigh⟩ := hshare i hi
    have hceil := hround (Nat.zero_lt_of_lt hi)
    omega
  · calc
      (drawnBy len i).ncard ≤ N ⌈/⌉ len := (hshare i hi).2
      _ ≤ N / len + 1 := hround (Nat.zero_lt_of_lt hi)
      _ ≤ (drawnBy len j).ncard + 1 := Nat.succ_le_succ (hshare j hj).1

/-- Numbers of two words are not shared out among three times `2 ^ 32` places
without a rest, so some places get one pair more. -/
theorem ncard_drawnBy_even_rest :
    let len := 3 * 2 ^ 32
    (len < 2 ^ 64 ∧ 0 < len ∧ len - 1 < len) ∧
      ((drawnBy len (len - 1)).ncard = 2 ^ 128 / len ∨
        (drawnBy len (len - 1)).ncard = 2 ^ 128 / len + 1) ∧
      (drawnBy len 0).ncard ≤ (drawnBy len (len - 1)).ncard + 1 := by
  intro len
  have hmax : len < 2 ^ 64 := by decide
  have hfirst : 0 < len := by decide
  have hlast : len - 1 < len := by decide
  have hbits : (Width.ofLength len).bits = 64 := by decide
  have hceil : 2 ^ 128 ⌈/⌉ len = 2 ^ 128 / len + 1 := by
    rw [Nat.ceilDiv_eq_add_pred_div]
    decide +kernel
  obtain ⟨-, hshare, hdiffer⟩ := ncard_drawnBy_even hmax
  rw [hbits, hceil] at hshare
  exact ⟨⟨hmax, hfirst, hlast⟩, hshare _ hlast, hdiffer _ hfirst _ hlast⟩

end RollCall

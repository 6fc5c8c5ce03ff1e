import Mathlib.Algebra.Order.Floor.Div
import Mathlib.Data.Nat.Basic
import Mathlib.Data.Set.Card
import Mathlib.Order.Interval.Finset.Nat
import RollCall.Proofs.Selection
import RollCall.Proofs.Sources

/-!
# What a draw gives

A draw may stop after one number, yet it gives what two numbers multiplied out
as one would give (`scale_eq`): it only stops where the second could not carry
into the result. And of the values below `N`, those that scale down to one
place are a whole interval, whose length is an even share of `N`, rounded down
or up (`le_card_scaled`, `card_scaled_le`). For lengths of 64 bits the first of
these is the whole story of a draw (`drawBelow_exact`).
-/

namespace RollCall

/-! ## One number or two -/

namespace Width

variable {w : Width} {len x y : ℕ}

/-- A first number that leaves the result open: a second one is drawn. -/
def AsksMore (w : Width) (len x : ℕ) : Prop :=
  w.span - len < x * len % w.span

instance (w : Width) (len x : ℕ) : Decidable (w.AsksMore len x) :=
  inferInstanceAs (Decidable (_ < _))

theorem product_eq (w : Width) (len x y : ℕ) :
    w.product len x y = x * len / w.span +
      (x * len % w.span + y * len / w.span) / w.span :=
  div_span_eq w.span_pos x y len

/-- Where no second number is asked for, none would spill over. -/
theorem sum_lt_of_not_asksMore (h : ¬ w.AsksMore len x) (hlen : 0 < len)
    (hspan : len ≤ w.span) (hy : y < w.span) :
    x * len % w.span + y * len / w.span < w.span := by
  have hcarry : y * len / w.span < len := by
    rw [Nat.div_lt_iff_lt_mul w.span_pos, Nat.mul_comm]
    exact Nat.mul_lt_mul_of_pos_left hy hlen
  rw [AsksMore] at h
  omega

theorem product_of_not_asksMore (h : ¬ w.AsksMore len x) (hlen : 0 < len)
    (hspan : len ≤ w.span) (hy : y < w.span) :
    w.product len x y = x * len / w.span := by
  have hsum := sum_lt_of_not_asksMore h hlen hspan hy
  rw [product_eq, Nat.div_eq_of_lt hsum, Nat.add_zero]

/-- The second number adds 1 at most. -/
theorem carry_le_one (w : Width) (len x y : ℕ) (hspan : len ≤ w.span)
    (hy : y < w.span) :
    (x * len % w.span + y * len / w.span) / w.span ≤ 1 := by
  have hlow := Nat.mod_lt (x * len) w.span_pos
  have hhigh : y * len / w.span ≤ len :=
    Nat.div_le_of_le_mul (Nat.mul_le_mul_right len hy.le)
  rw [← Nat.lt_succ_iff, Nat.div_lt_iff_lt_mul w.span_pos]
  omega

/-- A first number that leaves the result open has room for the 1 above it: the
last place is never left open. -/
theorem add_one_lt_of_asksMore (hx : x < w.span) (hspan : len ≤ w.span)
    (h : w.AsksMore len x) : x * len / w.span + 1 < len := by
  rw [AsksMore] at h
  have hsplit := Nat.div_add_mod (x * len) w.span
  have hproduct : (x + 1) * len ≤ w.span * len := Nat.mul_le_mul_right len hx
  rw [Nat.succ_mul] at hproduct
  by_contra hlast
  have htop : w.span * len ≤ w.span * (x * len / w.span + 1) :=
    Nat.mul_le_mul_left w.span (Nat.not_lt.mp hlast)
  rw [Nat.mul_succ] at htop
  omega

variable {σ : Type} [WordSource σ]

/-- A draw gives what the long number gives, whether the second half of it was
drawn or not. -/
theorem scale_eq (w : Width) (hlen : 0 < len) (hspan : len ≤ w.span) (s : σ) :
    w.scale len s = (w.exact len s,
      if w.AsksMore len (w.number s).1 then (w.number (w.number s).2).2
      else (w.number s).2) := by
  set x := w.number s
  set y := w.number x.2
  have hybound : y.1 < w.span := w.number_lt x.2
  have hscale : w.scale len s =
      if w.AsksMore len x.1 then
        if w.span ≤ x.1 * len % w.span + y.1 * len / w.span then
          (x.1 * len / w.span + 1, y.2)
        else (x.1 * len / w.span, y.2)
      else (x.1 * len / w.span, x.2) := rfl
  rw [hscale, w.exact_eq]
  by_cases hmore : w.AsksMore len x.1
  · have hcarry := carry_le_one w len x.1 y.1 hspan hybound
    rw [if_pos hmore, if_pos hmore, product_eq]
    split_ifs with hspill
    · have hone := (Nat.one_le_div_iff w.span_pos).mpr hspill
      rw [Nat.le_antisymm hcarry hone]
    · rw [Nat.div_eq_of_lt (Nat.not_le.mp hspill), Nat.add_zero]
  · rw [if_neg hmore, if_neg hmore,
      product_of_not_asksMore hmore hlen hspan hybound]

end Width

/-! ## How many values give one result -/

section scaled

open Finset

variable {N k i : ℕ}

/-- The values below `N` that scale down to one place among `k`. -/
theorem scaled_eq_Ico (hN : 0 < N) (hi : i < k) :
    {z ∈ range N | z * k / N = i} =
      Ico (i * N ⌈/⌉ k) ((i + 1) * N ⌈/⌉ k) := by
  have hk : 0 < k := Nat.zero_lt_of_lt hi
  ext z
  have hlow : i * N ⌈/⌉ k ≤ z ↔ i * N ≤ z * k := by
    rw [ceilDiv_le_iff_le_mul hk, Nat.mul_comm k]
  have hhigh : z < (i + 1) * N ⌈/⌉ k ↔ z * k < (i + 1) * N := by
    rw [← not_le, ceilDiv_le_iff_le_mul hk, not_le, Nat.mul_comm k]
  -- the last place still ends below `N`
  have hlast : z * k < (i + 1) * N → z < N := by
    intro h
    have hle : (i + 1) * N ≤ k * N := Nat.mul_le_mul_right N hi
    rw [Nat.mul_comm] at h
    exact Nat.lt_of_mul_lt_mul_left (h.trans_le hle)
  have hplace : z * k / N = i ↔ i * N ≤ z * k ∧ z * k < (i + 1) * N := by
    rw [Nat.div_eq_iff hN, Nat.succ_mul]
    omega
  rw [mem_filter, mem_range, mem_Ico, hlow, hhigh, hplace]
  exact and_iff_right_of_imp fun h => hlast h.2

theorem le_card_scaled (hN : 0 < N) (hi : i < k) :
    N / k ≤ #{z ∈ range N | z * k / N = i} := by
  have hk : 0 < k := Nat.zero_lt_of_lt hi
  rw [scaled_eq_Ico hN hi, Nat.card_Ico]
  have hend : (i + 1) * N ≤ k * ((i + 1) * N ⌈/⌉ k) := le_smul_ceilDiv hk
  have hshare : k * (N / k) ≤ N := Nat.mul_div_le N k
  have hstart : i * N ⌈/⌉ k ≤ (i + 1) * N ⌈/⌉ k - N / k := by
    rw [ceilDiv_le_iff_le_mul hk, Nat.mul_sub]
    rw [Nat.succ_mul] at hend ⊢
    omega
  have hroom : N / k ≤ (i + 1) * N ⌈/⌉ k := by
    apply Nat.le_of_mul_le_mul_left _ hk
    rw [Nat.succ_mul] at hend ⊢
    omega
  omega

theorem card_scaled_le (hN : 0 < N) (hi : i < k) :
    #{z ∈ range N | z * k / N = i} ≤ N ⌈/⌉ k := by
  have hk : 0 < k := Nat.zero_lt_of_lt hi
  have hstart : i * N ≤ k * (i * N ⌈/⌉ k) := le_smul_ceilDiv hk
  have hshare : N ≤ k * (N ⌈/⌉ k) := le_smul_ceilDiv hk
  rw [scaled_eq_Ico hN hi, Nat.card_Ico, Nat.sub_le_iff_le_add,
    ceilDiv_le_iff_le_mul hk, Nat.mul_add, Nat.succ_mul]
  omega

end scaled

/-! ## All draws -/

theorem Width.ofLength_of_lt {len : ℕ} (h : len < 2 ^ 32) :
    Width.ofLength len = .narrow :=
  if_pos h

theorem Width.ofLength_of_not_lt {len : ℕ} (h : ¬ len < 2 ^ 32) :
    Width.ofLength len = .wide :=
  if_neg h

theorem Width.bits_ofLength (len : ℕ) :
    (Width.ofLength len).bits = if len < 2 ^ 32 then 32 else 64 := by
  split_ifs with hnarrow
  · rw [ofLength_of_lt hnarrow, bits]
  · rw [ofLength_of_not_lt hnarrow, bits]

theorem Width.size_ofLength (len : ℕ) :
    (Width.ofLength len).size = if len < 2 ^ 32 then 1 else 2 := by
  split_ifs with hnarrow
  · rw [ofLength_of_lt hnarrow, size]
  · rw [ofLength_of_not_lt hnarrow, size]

theorem Width.span_eq (w : Width) : w.span = 2 ^ w.bits :=
  Nat.one_shiftLeft w.bits

theorem Width.lt_span_ofLength {len : ℕ} (h : len < 2 ^ 64) :
    len < (Width.ofLength len).span := by
  rw [Width.span_eq, Width.bits_ofLength]
  split_ifs with hnarrow
  · exact hnarrow
  · exact h

theorem drawBelow_eq_exact {σ : Type} [WordSource σ] {len : ℕ} (hlen : 0 < len)
    (hmax : len < 2 ^ 64) (s : σ) :
    drawBelow len s = .ok ((Width.ofLength len).exact len s,
      if (Width.ofLength len).AsksMore len ((Width.ofLength len).number s).1
      then ((Width.ofLength len).number ((Width.ofLength len).number s).2).2
      else ((Width.ofLength len).number s).2) := by
  rw [drawBelow, if_neg (Nat.ne_of_gt hlen),
    (Width.ofLength len).scale_eq hlen (Width.lt_span_ofLength hmax).le]

/-- The same draw, by the words that come next. -/
theorem drawBelow_eq_product {σ : Type} [WordSource σ] {len n x y : ℕ}
    (hlen : 0 < len) (hmax : len < 2 ^ 64) (s : σ)
    (hn : (Width.ofLength len).size = n) (hx : numeral (ahead n s) = x)
    (hy : numeral (ahead n (past n s)) = y) :
    drawBelow len s = .ok ((Width.ofLength len).product len x y,
      if (Width.ofLength len).AsksMore len x then past (2 * n) s
      else past n s) := by
  rw [drawBelow_eq_exact hlen hmax, Width.exact_eq, Width.number_eq,
    Width.number_eq, hn, hx, hy, ← past_add, ← Nat.two_mul]

/-- **A draw is one long product.** Let two numbers of `B` bits be made of the
words that come next, the low word first. Multiplied out with the length as one,
they give the place drawn, though the words of the second are only taken where
the low part of the first product lies in its last `len - 1` values. No product
outgrows `2 * B` bits, and where the low parts spill over there is room for 1
more: the last place is always settled by the first number. -/
theorem drawBelow_exact {σ : Type} [WordSource σ] {len : ℕ} (hlen : 0 < len)
    (hmax : len < 2 ^ 64) (s : σ) :
    let B := if len < 2 ^ 32 then 32 else 64
    let n := if len < 2 ^ 32 then 1 else 2
    let x := numeral (ahead n s)
    let y := numeral (ahead n (past n s))
    let high := x * len / 2 ^ B
    let low := x * len % 2 ^ B
    let result := (x * 2 ^ B + y) * len / 2 ^ (2 * B)
    (Width.ofLength len).bits = B ∧
      drawBelow len s = .ok (result,
        if low ≤ 2 ^ B - len then past n s else past (2 * n) s) ∧
      result < len ∧
      (x < 2 ^ B ∧ y < 2 ^ B) ∧
      (x * len < 2 ^ (2 * B) ∧ y * len < 2 ^ (2 * B)) ∧
      (2 ^ B ≤ low + y * len / 2 ^ B → high + 1 < len) ∧
      (high + 1 = len → low ≤ 2 ^ B - len) := by
  intro B n x y high low result
  set w := Width.ofLength len
  have hbits : w.bits = B := Width.bits_ofLength len
  have hsize : w.size = n := Width.size_ofLength len
  have hspan : w.span = 2 ^ B := by rw [w.span_eq, hbits]
  have hsquare : w.span * w.span = 2 ^ (2 * B) := by
    rw [hspan, ← pow_add, Nat.two_mul]
  have hx : x < w.span :=
    Width.numeral_lt ((length_ahead n s).trans hsize.symm)
  have hy : y < w.span :=
    Width.numeral_lt ((length_ahead n (past n s)).trans hsize.symm)
  have hlt : len < w.span := Width.lt_span_ofLength hmax
  have hresult : w.product len x y = result := by
    rw [Width.product, hsquare, hspan]
  have hmore : w.AsksMore len x ↔ ¬ low ≤ 2 ^ B - len := by
    rw [Width.AsksMore, hspan, Nat.not_le]
  have hroom : w.AsksMore len x → high + 1 < len := by
    have := Width.add_one_lt_of_asksMore hx hlt.le
    rwa [hspan] at this
  refine ⟨hbits, ?_, ?_, ?_, ?_, ?_, ?_⟩
  · rw [drawBelow_eq_product hlen hmax s hsize rfl rfl, hresult]
    by_cases hlow : low ≤ 2 ^ B - len
    · rw [if_pos hlow, if_neg (by rwa [hmore, not_not])]
    · rw [if_neg hlow, if_pos (by rwa [hmore])]
  · rw [← hresult]
    exact w.product_lt hlen hx hy
  · rw [← hspan]
    exact ⟨hx, hy⟩
  · rw [← hsquare]
    exact ⟨Nat.mul_lt_mul'' hx hlt, Nat.mul_lt_mul'' hy hlt⟩
  · intro hspill
    apply hroom
    by_contra hsettled
    have hsum := Width.sum_lt_of_not_asksMore hsettled hlen hlt.le hy
    rw [hspan] at hsum
    exact Nat.not_le.mpr hsum hspill
  · intro hlast
    by_contra hlow
    exact Nat.ne_of_lt (hroom (hmore.mpr hlow)) hlast

/-- A number of two words that leaves the place open, and a second one that
spills over into it. -/
theorem drawBelow_exact_spill :
    let t : Tape := ⟨fun i => if i < 2 then 0x55555555 else 0xFFFFFFFF, 0⟩
    (0 < 3 * 2 ^ 32 ∧ 3 * 2 ^ 32 < 2 ^ 64) ∧
      drawBelow (3 * 2 ^ 32) t = .ok (2 ^ 32, { t with position := 4 }) := by
  intro t
  have hlen : 0 < 3 * 2 ^ 32 := by decide
  have hmax : 3 * 2 ^ 32 < 2 ^ 64 := by decide
  obtain ⟨-, hdraw, -⟩ := drawBelow_exact hlen hmax t
  refine ⟨⟨hlen, hmax⟩, hdraw.trans ?_⟩
  rw [Except.ok.injEq, Prod.mk.injEq]
  constructor
  · decide +kernel
  · rw [if_neg (by decide +kernel)]
    rfl

end RollCall

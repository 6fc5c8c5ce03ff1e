import Mathlib.Algebra.BigOperators.Intervals
import Mathlib.Algebra.Order.Floor.Div
import Mathlib.GroupTheory.GroupAction.Ring
import RollCall.Proofs.Draws

/-!
# How fair a shuffle is

A draw takes one word or two, and which of the two depends on the words. To
count the strings of `2 * n` words that give one order of `n` names, each string
is laid out anew (`lay`): a draw gets two words of its own, and if it does not
ask for the second, that word stands at the end, where nobody reads it. So the
strings for an order are the pairs of words for its first place, times the
strings for the rest of it (`yielding_cons`), and there are as many such pairs
for one place as for another, but for rounding.
-/

namespace RollCall

open Finset

/-! ## Words that run out -/

/-- Words in a row that ends. Once a word is asked for that is not there,
nothing is left. -/
inductive Supply where
  | holding (words : List UInt32)
  | exhausted

instance : WordSource Supply where
  next
    | .holding (word :: rest) => (word, .holding rest)
    | .holding [] => (0, .exhausted)
    | .exhausted => (0, .exhausted)

section draw

variable {len : ℕ} {x y : UInt32}

theorem drawBelow_narrow {σ : Type} [WordSource σ] (hlen : 0 < len)
    (hspan : len < Width.narrow.span) (s : σ) :
    drawBelow len s = .ok (Width.narrow.exact len s,
      if Width.narrow.AsksMore len (Width.narrow.number s).1
      then (Width.narrow.number (Width.narrow.number s).2).2
      else (Width.narrow.number s).2) := by
  have hdraw := drawBelow_eq_exact hlen (hspan.trans (by decide)) s
  rwa [Width.ofLength_of_lt hspan] at hdraw

/-- A first word that settles the draw is the only one that is taken. -/
theorem drawBelow_holding_one (hlen : 0 < len) (hspan : len < Width.narrow.span)
    (hx : ¬ Width.narrow.AsksMore len x.toNat) (rest : List UInt32) :
    drawBelow len (Supply.holding (x :: rest)) =
      .ok (x.toNat * len / Width.narrow.span, .holding rest) := by
  have hy := Width.narrow.number_lt (Supply.holding rest)
  have hexact : Width.narrow.exact len (Supply.holding (x :: rest)) =
      x.toNat * len / Width.narrow.span :=
    Width.product_of_not_asksMore hx hlen hspan.le hy
  rw [drawBelow_narrow hlen hspan, hexact]
  exact congrArg _ (congrArg _ (if_neg hx))

/-- Else the second word is taken too. -/
theorem drawBelow_holding_two (hlen : 0 < len) (hspan : len < Width.narrow.span)
    (hx : Width.narrow.AsksMore len x.toNat) (rest : List UInt32) :
    drawBelow len (Supply.holding (x :: y :: rest)) =
      .ok (Width.narrow.product len x.toNat y.toNat, .holding rest) := by
  rw [drawBelow_narrow hlen hspan]
  exact congrArg _ (congrArg _ (if_pos hx))

/-- No draw takes more than two words, and what lies behind them has no say in
it. -/
theorem exists_drawBelow_holding (hlen : 0 < len)
    (hspan : len < Width.narrow.span) {words : List UInt32}
    (hwords : 2 ≤ words.length) :
    ∃ i later, i < len ∧ words.length ≤ later.length + 2 ∧
      ∀ extra, drawBelow len (Supply.holding (words ++ extra)) =
        .ok (i, .holding (later ++ extra)) := by
  obtain ⟨x, y, rest, rfl⟩ : ∃ x y rest, words = x :: y :: rest := by
    match words, hwords with
    | x :: y :: rest, _ => exact ⟨x, y, rest, rfl⟩
  obtain ⟨i, later, hlater, hdraw⟩ : ∃ i later,
      rest.length ≤ later.length ∧ ∀ extra,
        drawBelow len (Supply.holding (x :: y :: rest ++ extra)) =
          .ok (i, .holding (later ++ extra)) := by
    by_cases hx : Width.narrow.AsksMore len x.toNat
    · exact ⟨_, rest, le_rfl, fun extra =>
        drawBelow_holding_two hlen hspan hx (rest ++ extra)⟩
    · exact ⟨_, y :: rest, Nat.le_succ _, fun extra =>
        drawBelow_holding_one hlen hspan hx (y :: rest ++ extra)⟩
  obtain ⟨j, t, hj, hlt⟩ :=
    drawBelow_inRange len (Supply.holding (x :: y :: rest ++ [])) hlen
  cases (hdraw []).symm.trans hj
  exact ⟨i, later, hlt, Nat.add_le_add_right hlater 2, hdraw⟩

end draw

/-! ## Two words for each draw -/

/-- The words of a draw and those for the draws after it, in the order in which
they are read: a second word that is not asked for comes last of all. -/
def lay (len : ℕ) (pair : UInt32 × UInt32) (rest : List UInt32) :
    List UInt32 :=
  if Width.narrow.AsksMore len pair.1.toNat then pair.1 :: pair.2 :: rest
  else pair.1 :: (rest ++ [pair.2])

section lay

variable {len : ℕ} {x y : UInt32} {rest : List UInt32}

theorem lay_of_asksMore (h : Width.narrow.AsksMore len x.toNat) :
    lay len (x, y) rest = x :: y :: rest := by
  rw [lay, if_pos h]

theorem lay_of_not_asksMore (h : ¬ Width.narrow.AsksMore len x.toNat) :
    lay len (x, y) rest = x :: (rest ++ [y]) := by
  rw [lay, if_neg h]

theorem length_lay (len : ℕ) (pair : UInt32 × UInt32) (rest : List UInt32) :
    (lay len pair rest).length = rest.length + 2 := by
  unfold lay
  split <;> simp

theorem lay_injective (len : ℕ) :
    Function.Injective fun p : (UInt32 × UInt32) × List UInt32 =>
      lay len p.1 p.2 := by
  rintro ⟨⟨x, y⟩, rest⟩ ⟨⟨x', y'⟩, rest'⟩ (heq : lay _ _ _ = lay _ _ _)
  -- the first word stands first in any case, and says where the second is
  have hx : x = x' := by
    have hhead := congrArg List.head? heq
    by_cases h : Width.narrow.AsksMore len x.toNat <;>
      by_cases h' : Width.narrow.AsksMore len x'.toNat <;>
      simpa [lay, h, h'] using hhead
  subst hx
  by_cases h : Width.narrow.AsksMore len x.toNat
  · rw [lay_of_asksMore h, lay_of_asksMore h] at heq
    obtain ⟨rfl, rfl⟩ : y = y' ∧ rest = rest' := by simpa using heq
    rfl
  · rw [lay_of_not_asksMore h, lay_of_not_asksMore h, List.cons.injEq] at heq
    obtain ⟨rfl, hlast⟩ := List.append_inj' heq.2 rfl
    rw [List.singleton_inj.mp hlast]

theorem exists_lay (len : ℕ) {words : List UInt32} (h : 2 ≤ words.length) :
    ∃ pair rest, lay len pair rest = words := by
  obtain ⟨x, tail, rfl⟩ :=
    List.exists_cons_of_length_pos (Nat.zero_lt_of_lt h)
  have htail : tail ≠ [] := by
    rintro rfl
    simp at h
  by_cases hx : Width.narrow.AsksMore len x.toNat
  · obtain ⟨y, rest, rfl⟩ := List.exists_cons_of_ne_nil htail
    exact ⟨(x, y), rest, lay_of_asksMore hx⟩
  · refine ⟨(x, tail.getLast htail), tail.dropLast, ?_⟩
    rw [lay_of_not_asksMore hx, List.dropLast_append_getLast]

/-- A draw takes what was laid out for it, and an unread second word stays
behind the rest. -/
theorem drawBelow_lay (hlen : 0 < len) (hspan : len < Width.narrow.span)
    (x y : UInt32) (rest : List UInt32) :
    ∃ extra, drawBelow len (Supply.holding (lay len (x, y) rest)) =
      .ok (Width.narrow.product len x.toNat y.toNat,
        .holding (rest ++ extra)) := by
  by_cases hx : Width.narrow.AsksMore len x.toNat
  · refine ⟨[], ?_⟩
    rw [lay_of_asksMore hx, drawBelow_holding_two hlen hspan hx,
      List.append_nil]
  · refine ⟨[y], ?_⟩
    rw [lay_of_not_asksMore hx, drawBelow_holding_one hlen hspan hx,
      Width.product_of_not_asksMore hx hlen hspan.le y.toNat_lt]

end lay

/-! ## The strings that give one order -/

/-- The pairs of words that draw this place. -/
def drawing (len i : ℕ) : Set (UInt32 × UInt32) :=
  {pair | Width.narrow.product len pair.1.toNat pair.2.toNat = i}

section select

variable {α : Type} {xs ys : List α}

/-- Two words for each draw are enough, and words behind them are left as they
are. -/
theorem exists_select_holding {words : List UInt32}
    (hspan : xs.length < Width.narrow.span)
    (hwords : 2 * xs.length ≤ words.length) :
    ∃ ys left, ∀ extra, select drawBelow xs (Supply.holding (words ++ extra)) =
      .ok (ys, .holding (left ++ extra)) := by
  induction hn : xs.length generalizing xs words with
  | zero =>
      rw [List.length_eq_zero_iff.mp hn]
      exact ⟨[], words, fun extra => by rw [select]⟩
  | succ n ih =>
      obtain ⟨i, later, hi, hlater, hdraw⟩ :=
        exists_drawBelow_holding (by omega) hspan
          (by omega : 2 ≤ words.length)
      have hlen := length_eraseIdx_add_one hi
      have henough : 2 * (xs.eraseIdx i).length ≤ later.length := by omega
      obtain ⟨ys, left, hselect⟩ := ih (by omega) henough (by omega)
      exact ⟨xs[i] :: ys, left, fun extra =>
        select_of_draw hi (hdraw extra) (hselect extra)⟩

/-- The strings of two words for each draw by which a list is arranged as
another. -/
def yielding (xs ys : List α) : Set (List UInt32) :=
  {words | words.length = 2 * xs.length ∧
    ∃ s, select drawBelow xs (Supply.holding words) = .ok (ys, s)}

/-- Laid out, the words of the first draw and those of the others each do their
own part. -/
theorem lay_mem_yielding (hnodup : xs.Nodup)
    (hspan : xs.length < Width.narrow.span) {i : ℕ} (hi : i < xs.length)
    (pair : UInt32 × UInt32) (rest : List UInt32) :
    lay xs.length pair rest ∈ yielding xs (xs[i] :: ys) ↔
      pair ∈ drawing xs.length i ∧ rest ∈ yielding (xs.eraseIdx i) ys := by
  obtain ⟨x, y⟩ := pair
  have hpos : 0 < xs.length := Nat.zero_lt_of_lt hi
  have hlen := length_eraseIdx_add_one hi
  have hj := Width.narrow.product_lt hpos x.toNat_lt y.toNat_lt
  obtain ⟨extra, hdraw⟩ := drawBelow_lay hpos hspan x y rest
  simp only [yielding, drawing, Set.mem_ofPred_eq, length_lay]
  generalize Width.narrow.product xs.length x.toNat y.toNat = j at hj hdraw ⊢
  have hlength : rest.length + 2 = 2 * xs.length ↔
      rest.length = 2 * (xs.eraseIdx i).length := by omega
  rw [hlength, and_left_comm, and_congr_right_iff]
  intro hrest
  have hlen' := length_eraseIdx_add_one hj
  -- the later draws are the same whether the second word lies behind or not
  obtain ⟨zs, left, hselect⟩ := exists_select_holding
    (by omega : (xs.eraseIdx j).length < _) (by omega : _ ≤ rest.length)
  have hpart := hselect []
  rw [List.append_nil] at hpart
  rw [select_of_draw hj hdraw (hselect extra)]
  constructor
  · rintro ⟨s, heq⟩
    simp only [Except.ok.injEq, Prod.mk.injEq, List.cons.injEq] at heq
    obtain ⟨⟨hname, rfl⟩, -⟩ := heq
    -- the names differ, so the same name is the same place
    obtain rfl := (hnodup.getElem_inj_iff).mp hname
    exact ⟨rfl, _, hpart⟩
  · rintro ⟨rfl, s, heq⟩
    cases hpart.symm.trans heq
    exact ⟨_, rfl⟩

theorem yielding_cons (hnodup : xs.Nodup)
    (hspan : xs.length < Width.narrow.span) {i : ℕ} (hi : i < xs.length) :
    yielding xs (xs[i] :: ys) = (fun p => lay xs.length p.1 p.2) ''
      (drawing xs.length i ×ˢ yielding (xs.eraseIdx i) ys) := by
  ext words
  constructor
  · intro hwords
    have htwo : 2 ≤ words.length := by
      rw [hwords.1]
      omega
    obtain ⟨pair, rest, rfl⟩ := exists_lay xs.length htwo
    exact ⟨(pair, rest), (lay_mem_yielding hnodup hspan hi _ _).mp hwords, rfl⟩
  · rintro ⟨⟨pair, rest⟩, hparts, rfl⟩
    exact (lay_mem_yielding hnodup hspan hi _ _).mpr hparts

theorem ncard_yielding_cons (hnodup : xs.Nodup)
    (hspan : xs.length < Width.narrow.span) {i : ℕ} (hi : i < xs.length) :
    (yielding xs (xs[i] :: ys)).ncard =
      (drawing xs.length i).ncard * (yielding (xs.eraseIdx i) ys).ncard := by
  rw [yielding_cons hnodup hspan hi,
    Set.ncard_image_of_injective _ (lay_injective xs.length), Set.ncard_prod]

theorem yielding_nil : yielding ([] : List α) [] = {[]} := by
  ext words
  rw [yielding, Set.mem_ofPred_eq, Set.mem_singleton_iff, List.length_nil,
    Nat.mul_zero, List.length_eq_zero_iff, and_iff_left_iff_imp]
  rintro rfl
  exact ⟨_, by rw [select]⟩

end select

/-! ## How many they are -/

/-- The long number of two words. -/
def joined (pair : UInt32 × UInt32) : ℕ :=
  pair.1.toNat * 2 ^ 32 + pair.2.toNat

theorem joined_injective : Function.Injective joined := by
  rintro ⟨x, y⟩ ⟨x', y'⟩ heq
  have hy := y.toNat_lt
  have hy' := y'.toNat_lt
  simp only [joined] at heq
  simp only [Prod.mk.injEq, ← UInt32.toNat_inj]
  omega

theorem mem_drawing_iff {len i : ℕ} {pair : UInt32 × UInt32} :
    pair ∈ drawing len i ↔ joined pair * len / 2 ^ 64 = i := by
  have hspan : Width.narrow.span = 2 ^ 32 := rfl
  rw [drawing, Set.mem_ofPred_eq, Width.product, hspan, ← pow_add]
  rfl

theorem range_joined : Set.range joined = Set.Iio (2 ^ 64) := by
  ext z
  rw [Set.mem_range, Set.mem_Iio]
  constructor
  · rintro ⟨⟨x, y⟩, rfl⟩
    have hx := x.toNat_lt
    have hy := y.toNat_lt
    simp only [joined]
    omega
  · intro hz
    refine ⟨(UInt32.ofNat (z / 2 ^ 32), UInt32.ofNat (z % 2 ^ 32)), ?_⟩
    simp only [joined, UInt32.toNat_ofNat']
    omega

theorem image_joined_drawing (len i : ℕ) :
    joined '' drawing len i = {z ∈ range (2 ^ 64) | z * len / 2 ^ 64 = i} := by
  ext z
  rw [mem_coe, mem_filter, mem_range, ← Set.mem_Iio, ← range_joined]
  constructor
  · rintro ⟨pair, hpair, rfl⟩
    exact ⟨⟨pair, rfl⟩, mem_drawing_iff.mp hpair⟩
  · rintro ⟨⟨pair, rfl⟩, hplace⟩
    exact ⟨pair, mem_drawing_iff.mpr hplace, rfl⟩

theorem ncard_drawing (len i : ℕ) :
    (drawing len i).ncard = #{z ∈ range (2 ^ 64) | z * len / 2 ^ 64 = i} := by
  rw [← Set.ncard_image_of_injective _ joined_injective, image_joined_drawing,
    Set.ncard_coe_finset]

theorem ncard_yielding_bounds {α : Type} {xs ys : List α} (hnodup : xs.Nodup)
    (hspan : xs.length < Width.narrow.span) (hperm : ys.Perm xs) :
    ∏ k ∈ Icc 1 xs.length, 2 ^ 64 / k ≤ (yielding xs ys).ncard ∧
      (yielding xs ys).ncard ≤ ∏ k ∈ Icc 1 xs.length, (2 ^ 64 ⌈/⌉ k) := by
  induction ys generalizing xs with
  | nil =>
      obtain rfl := List.nil_perm.mp hperm
      simp [yielding_nil]
  | cons y ys ih =>
      obtain ⟨i, hi, rfl⟩ := List.getElem_of_mem (hperm.subset List.mem_cons_self)
      have hrest : ys.Perm (xs.eraseIdx i) :=
        (hperm.trans (List.getElem_cons_eraseIdx_perm hi).symm).cons_inv
      have hlen := length_eraseIdx_add_one hi
      have hN : 0 < 2 ^ 64 := by decide
      obtain ⟨hlow, hhigh⟩ := ih
        (hnodup.sublist (List.eraseIdx_sublist xs i)) (by omega) hrest
      rw [ncard_yielding_cons hnodup hspan hi, ncard_drawing, ← hlen,
        prod_Icc_succ_top (by omega), prod_Icc_succ_top (by omega), hlen,
        Nat.mul_comm #_]
      exact ⟨Nat.mul_le_mul hlow (le_card_scaled hN hi),
        Nat.mul_le_mul hhigh (card_scaled_le hN hi)⟩

/-! ## Shuffles -/

/-- **A fair shuffle.** Let words come from a string of twice as many as there
are names. They never run out, and of all such strings each order gets its
share: one part in `k` of the `2 ^ 64` pairs of words, for each number `k` of
names that are left at a draw, rounded down at the least and rounded up at the
most. -/
theorem Pool.shuffle_fair (p : Pool) (hsize : p.size < 2 ^ 32) :
    (∀ words : List UInt32, words.length = 2 * p.size →
      ∃ o left, p.shuffle (Supply.holding words) = .ok (o, .holding left)) ∧
    ∀ names : List String, names.Perm p.names →
      let strings := {words : List UInt32 | words.length = 2 * p.size ∧
        ∃ s, p.shuffle (Supply.holding words) = .ok (⟨names⟩, s)}
      ∏ k ∈ Icc 1 p.size, 2 ^ 64 / k ≤ strings.ncard ∧
        strings.ncard ≤ ∏ k ∈ Icc 1 p.size, (2 ^ 64 ⌈/⌉ k) := by
  constructor
  · intro words hwords
    obtain ⟨names, left, hselect⟩ := exists_select_holding hsize hwords.ge
    refine ⟨⟨names⟩, left, ?_⟩
    rw [shuffle_eq_ok_iff]
    simpa using hselect []
  · intro names hperm
    simp only [shuffle_eq_ok_iff]
    exact ncard_yielding_bounds p.nodup hsize hperm

/-- Ten words for the five standard names. -/
theorem Pool.shuffle_fair_standard :
    let names := ["Keith", "Bob", "Alice", "Charlie", "Bjarne"]
    let strings := {words : List UInt32 | words.length = 10 ∧
      ∃ s, standard.shuffle (Supply.holding words) = .ok (⟨names⟩, s)}
    (standard.size < 2 ^ 32 ∧ names.Perm standard.names) ∧
      ∏ k ∈ Icc 1 5, 2 ^ 64 / k ≤ strings.ncard ∧
      strings.ncard ≤ ∏ k ∈ Icc 1 5, (2 ^ 64 ⌈/⌉ k) := by
  intro names strings
  have hsize : standard.size < 2 ^ 32 := by decide
  have hperm : names.Perm standard.names := by decide
  exact ⟨⟨hsize, hperm⟩, (shuffle_fair standard hsize).2 names hperm⟩

end RollCall

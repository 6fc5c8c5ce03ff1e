import Mathlib.Data.Nat.Digits.Defs
import RollCall.Draw

/-!
# What a source yields

The words of a source are those that it yields one after another: the next `n`
of them (`ahead`), and the source when these are gone (`past`). A number is made
of the next word, or of the next two, the low one first (`Width.number_eq`).
-/

namespace RollCall

variable {σ : Type} [WordSource σ]

/-- The next `n` words of a source. -/
def ahead : ℕ → σ → List UInt32
  | 0, _ => []
  | n + 1, s => (WordSource.next s).1 :: ahead n (WordSource.next s).2

/-- A source after `n` words were taken. -/
def past : ℕ → σ → σ
  | 0, s => s
  | n + 1, s => past n (WordSource.next s).2

@[simp] theorem length_ahead (n : ℕ) (s : σ) : (ahead n s).length = n := by
  induction n generalizing s with
  | zero => rfl
  | succ n ih => rw [ahead, List.length_cons, ih]

theorem ahead_add (m n : ℕ) (s : σ) :
    ahead (m + n) s = ahead m s ++ ahead n (past m s) := by
  induction m generalizing s with
  | zero => rw [Nat.zero_add, ahead, past, List.nil_append]
  | succ m ih => rw [Nat.succ_add, ahead, ahead, past, ih, List.cons_append]

theorem past_add (m n : ℕ) (s : σ) : past (m + n) s = past n (past m s) := by
  induction m generalizing s with
  | zero => rw [Nat.zero_add, past]
  | succ m ih => rw [Nat.succ_add, past, past, ih]

/-! ## Numbers -/

/-- The number that words make, the low one first. -/
def numeral (words : List UInt32) : ℕ :=
  Nat.ofDigits (2 ^ 32) (words.map UInt32.toNat)

/-- How many words make a number. -/
def Width.size : Width → ℕ
  | narrow => 1
  | wide => 2

/-- The words of a number keep it within its bits. -/
theorem Width.numeral_lt {w : Width} {words : List UInt32}
    (h : words.length = w.size) : numeral words < w.span := by
  have hdigits : ∀ d ∈ words.map UInt32.toNat, d < 2 ^ 32 := by
    intro d hd
    obtain ⟨word, -, rfl⟩ := List.mem_map.mp hd
    exact word.toNat_lt
  have hlt : numeral words < (2 ^ 32) ^ (words.map UInt32.toNat).length :=
    Nat.ofDigits_lt_base_pow_length (by decide) hdigits
  rw [List.length_map, h] at hlt
  cases w with
  | narrow => exact hlt
  | wide => exact hlt

theorem Width.number_eq (w : Width) (s : σ) :
    w.number s = (numeral (ahead w.size s), past w.size s) := by
  cases w with
  | narrow => simp [number, size, numeral, ahead, past]
  | wide =>
      have hspan : narrow.span = 2 ^ 32 := rfl
      simp [number, size, numeral, ahead, past, hspan, Nat.ofDigits_cons]
      omega

end RollCall

import RollCall.Keystream
import RollCall.Proofs.Sources

/-!
# A keystream is one row of words

A keystream makes its words a block at a time and keeps those that were not
asked for yet. None of that can be told from outside: it stands at a position in
one row of words (`Keystream.StandsAt`), the next word is the one at that
position, and then it stands one further (`Keystream.StandsAt.next`). So the
words that it yields are those from its position on
(`Keystream.StandsAt.ahead_eq`). Which row it is, the bytes of the digest say
(`Keystream.toNat_key`).
-/

namespace RollCall

/-! ## The words of a key -/

namespace Word

/-- A multiple of a power of two and a number below that power share no bits. -/
theorem or_eq_add {i x y : ℕ} (hx : 2 ^ i ∣ x) (hy : y < 2 ^ i) :
    x ||| y = x + y := by
  obtain ⟨a, rfl⟩ := hx
  exact (Nat.two_pow_add_eq_or_of_lt hy a).symm

/-- A byte that is moved up stays within its word. -/
theorem toNat_byte_shiftLeft (b : UInt8) {n : UInt32} (hn : n.toNat ≤ 24) :
    (b.toUInt32 <<< n).toNat = 2 ^ n.toNat * b.toNat := by
  have hb : 2 ^ n.toNat * b.toNat < 2 ^ 32 :=
    calc
      2 ^ n.toNat * b.toNat < 2 ^ n.toNat * 2 ^ 8 :=
        Nat.mul_lt_mul_of_pos_left b.toNat_lt (Nat.two_pow_pos _)
      _ = 2 ^ (n.toNat + 8) := (Nat.pow_add 2 _ 8).symm
      _ ≤ 2 ^ 32 := Nat.pow_le_pow_right (by decide) (by omega)
  rw [UInt32.toNat_shiftLeft, Nat.mod_eq_of_lt (by omega : n.toNat < 32),
    UInt8.toNat_toUInt32, Nat.shiftLeft_eq, Nat.mul_comm, Nat.mod_eq_of_lt hb]

theorem toNat_ofBytes (b₃ b₂ b₁ b₀ : UInt8) :
    (ofBytes b₃ b₂ b₁ b₀).toNat =
      Nat.ofDigits 256 [b₀.toNat, b₁.toNat, b₂.toNat, b₃.toNat] := by
  have h₂ := b₂.toNat_lt
  have h₁ := b₁.toNat_lt
  have h₀ := b₀.toNat_lt
  have hshift₃ : (b₃.toUInt32 <<< 24).toNat = 2 ^ 24 * b₃.toNat :=
    toNat_byte_shiftLeft b₃ (by decide)
  have hshift₂ : (b₂.toUInt32 <<< 16).toNat = 2 ^ 16 * b₂.toNat :=
    toNat_byte_shiftLeft b₂ (by decide)
  have hshift₁ : (b₁.toUInt32 <<< 8).toNat = 2 ^ 8 * b₁.toNat :=
    toNat_byte_shiftLeft b₁ (by decide)
  -- each byte lies below those that are joined already
  have hjoin₂ : 2 ^ 24 * b₃.toNat ||| 2 ^ 16 * b₂.toNat =
      2 ^ 24 * b₃.toNat + 2 ^ 16 * b₂.toNat :=
    or_eq_add (i := 24) (by omega) (by omega)
  have hjoin₁ : 2 ^ 24 * b₃.toNat + 2 ^ 16 * b₂.toNat ||| 2 ^ 8 * b₁.toNat =
      2 ^ 24 * b₃.toNat + 2 ^ 16 * b₂.toNat + 2 ^ 8 * b₁.toNat :=
    or_eq_add (i := 16) (by omega) (by omega)
  rw [ofBytes, UInt32.toNat_or, UInt32.toNat_or, UInt32.toNat_or, hshift₃,
    hshift₂, hshift₁, UInt8.toNat_toUInt32, hjoin₂, hjoin₁,
    or_eq_add (i := 8) (by omega) (by omega)]
  simp only [Nat.ofDigits_cons, Nat.ofDigits_nil]
  omega

end Word

/-- A digest keys its keystream with eight words of four bytes each, the least
significant byte first. -/
theorem Keystream.toNat_key (d : Digest) {i : ℕ} (hi : i < 8) :
    (ofDigest d).key[i].toNat = Nat.ofDigits 256
      (((d.bytes.toList.drop (4 * i)).take 4).map UInt8.toNat) := by
  have hlength : d.bytes.toList.length = 32 := d.bytes.length_toList
  have hbytes : (d.bytes.toList.drop (4 * i)).take 4 =
      [d.bytes[4 * i], d.bytes[4 * i + 1], d.bytes[4 * i + 2],
        d.bytes[4 * i + 3]] := by
    rw [List.drop_eq_getElem_cons (by omega),
      List.drop_eq_getElem_cons (by omega),
      List.drop_eq_getElem_cons (by omega),
      List.drop_eq_getElem_cons (by omega)]
    rfl
  have hkey : (ofDigest d).key[i] = Word.ofBytes d.bytes[4 * i + 3]
      d.bytes[4 * i + 2] d.bytes[4 * i + 1] d.bytes[4 * i] := by
    simp [ofDigest]
  rw [hkey, hbytes, Word.toNat_ofBytes]
  rfl

/-! ## Positions -/

namespace Keystream

/-- Word `i` in the row of a key: word `i % 16` of block `i / 16`. Blocks are
numbered with 64 bits, so the row starts over after `2 ^ 68` words. -/
def word (key : Vector UInt32 8) (i : ℕ) : UInt32 :=
  (ChaCha20.block key (UInt64.ofNat (i / 16)))[i % 16]

theorem word_of_block (key : Vector UInt32 8) (b : ℕ) {j : ℕ} (hj : j < 16) :
    word key (16 * b + j) = (ChaCha20.block key (UInt64.ofNat b))[j] := by
  have hblock : (16 * b + j) / 16 = b := by omega
  have hplace : (16 * b + j) % 16 = j := by omega
  simp only [word, hblock, hplace]

/-- The `n` words of the row from position `p` on. -/
def stretch (key : Vector UInt32 8) (p n : ℕ) : List UInt32 :=
  (List.range' p n).map (word key)

@[simp] theorem length_stretch (key : Vector UInt32 8) (p n : ℕ) :
    (stretch key p n).length = n := by
  simp [stretch]

theorem stretch_succ (key : Vector UInt32 8) (p n : ℕ) :
    stretch key p (n + 1) = word key p :: stretch key (p + 1) n := by
  rw [stretch, List.range'_succ, List.map_cons, stretch]

theorem toList_block (key : Vector UInt32 8) (b : ℕ) :
    (ChaCha20.block key (UInt64.ofNat b)).toList = stretch key (16 * b) 16 := by
  apply List.ext_getElem
  · rw [length_stretch, Vector.length_toList]
  · intro j hj _
    have hj : j < 16 := by simpa using hj
    simp only [stretch, List.getElem_map, List.getElem_range', Nat.one_mul,
      word_of_block key b hj]
    rfl

/-- Position `p` in the row of a key: the words that wait are those from `p` to
the end of a block, and the block after it is made next. -/
structure StandsAt (k : Keystream) (key : Vector UInt32 8) (p : ℕ) : Prop where
  key_eq : k.key = key
  waiting_eq : k.waiting = stretch key p k.waiting.length
  exists_counter : ∃ b, k.counter = UInt64.ofNat b ∧
    p + k.waiting.length = 16 * b

theorem ofDigest_standsAt (d : Digest) :
    (ofDigest d).StandsAt (ofDigest d).key 0 :=
  ⟨rfl, rfl, 0, rfl, rfl⟩

namespace StandsAt

variable {k : Keystream} {key : Vector UInt32 8} {p : ℕ}

/-- The next word is the one at the position, whether it waits or a block is
made for it. -/
theorem next (h : k.StandsAt key p) :
    k.next.1 = word key p ∧ k.next.2.StandsAt key (p + 1) := by
  obtain ⟨key, counter, waiting⟩ := k
  obtain ⟨rfl, hwaiting, b, hcounter, hend⟩ := h
  cases waiting with
  | nil =>
      -- no word waits: the position is the start of the block to be made
      obtain rfl : p = 16 * b := hend
      obtain rfl : counter = UInt64.ofNat b := hcounter
      have hrest : (ChaCha20.block key (UInt64.ofNat b)).toList.tail =
          stretch key (16 * b + 1) 15 := by
        rw [toList_block, stretch_succ, List.tail_cons]
      have hnext : Keystream.next ⟨key, UInt64.ofNat b, []⟩ =
          (word key (16 * b),
            ⟨key, UInt64.ofNat b + 1, stretch key (16 * b + 1) 15⟩) := by
        rw [← hrest]
        exact congrArg (·, _) (word_of_block key b (Nat.succ_pos 15)).symm
      rw [hnext]
      refine ⟨rfl, rfl, ?_, b + 1, ?_, ?_⟩
      · rw [length_stretch]
      · exact (UInt64.ofNat_add b 1).symm
      · rw [length_stretch]
        omega
  | cons first rest =>
      have hwaiting : first :: rest = stretch key p (rest.length + 1) := hwaiting
      rw [stretch_succ, List.cons.injEq] at hwaiting
      refine ⟨hwaiting.1, rfl, hwaiting.2, b, hcounter, ?_⟩
      show p + 1 + rest.length = 16 * b
      rw [← hend, List.length_cons]
      omega

theorem ahead_eq (h : k.StandsAt key p) (n : ℕ) :
    ahead n k = stretch key p n := by
  induction n generalizing k p with
  | zero => rfl
  | succ n ih =>
      obtain ⟨hword, hnext⟩ := h.next
      rw [stretch_succ, ← hword, ← ih hnext]
      rfl

theorem past (h : k.StandsAt key p) (n : ℕ) :
    (RollCall.past n k).StandsAt key (p + n) := by
  induction n generalizing k p with
  | zero => exact h
  | succ n ih =>
      rw [← Nat.add_assoc, Nat.add_right_comm]
      exact ih h.next.2

end StandsAt

end Keystream

end RollCall

import Mathlib.Algebra.Group.Nat.Defs
import Mathlib.Data.List.Basic
import RollCall.Digest

/-!
# What a digest shows

A digest is shown whole in 64 digits and in short as a number, and the two are
made without each other: the digits a byte at a time, the number by adding up
eight bytes. Both are numerals of the same bytes. Digits of base 16, taken two
for a byte, write the number that the bytes write in base 256
(`Hex.readOn?_encode`); and in 64 bits there is room for eight bytes, so adding
them up loses nothing (`Digest.toNat_lead`). So the digits that come first are
the number, and all of them are the digest (`Digest.renderings_agree`); nor is
there a text of 64 digits that is not some digest's (`Digest.exists_toHex_iff`).
-/

namespace RollCall

/-- The number that bytes write in base 256, read on from `n`, the most
significant one first. -/
def byteNumber (n : ℕ) (bytes : List UInt8) : ℕ :=
  bytes.foldl (fun n b => n * 256 + b.toNat) n

namespace Hex

variable {bytes : List UInt8} {cs : List Char} {c : Char}

/-! ## Digits -/

/-- The sixteen digits in which bytes are written. -/
def alphabet : List Char :=
  "0123456789abcdef".toList

theorem alphabet_eq : alphabet = (List.range 16).map Nat.digitChar := by decide

theorem mem_alphabet_iff : c ∈ alphabet ↔ ∃ v < 16, Nat.digitChar v = c := by
  simp only [alphabet_eq, List.mem_map, List.mem_range]

theorem length_encode (bytes : List UInt8) :
    (encode bytes).length = 2 * bytes.length := by
  induction bytes with
  | nil => rfl
  | cons b bytes ih =>
      rw [encode_cons, List.length_cons, List.length_cons, ih,
        List.length_cons]
      omega

-- The zero that a small byte starts with is written.
example : encode [0x00, 0x0A, 0xF0] = "000af0".toList := by decide

theorem mem_alphabet_of_mem_encode (h : c ∈ encode bytes) : c ∈ alphabet := by
  induction bytes with
  | nil => cases h
  | cons b bytes ih =>
      rw [encode_cons, List.mem_cons, List.mem_cons] at h
      rcases h with rfl | rfl | hrest
      · exact mem_alphabet_iff.mpr ⟨_, high_lt b, rfl⟩
      · exact mem_alphabet_iff.mpr ⟨_, low_lt b, rfl⟩
      · exact ih hrest

/-! ## Two digits for a byte -/

theorem take_encode (k : ℕ) (bytes : List UInt8) :
    (encode bytes).take (2 * k) = encode (bytes.take k) := by
  induction k generalizing bytes with
  | zero => rfl
  | succ k ih =>
      cases bytes with
      | nil => rfl
      | cons b bytes =>
          rw [List.take_succ_cons, encode_cons, encode_cons, ← ih]
          rfl

theorem drop_encode (k : ℕ) (bytes : List UInt8) :
    (encode bytes).drop (2 * k) = encode (bytes.drop k) := by
  induction k generalizing bytes with
  | zero => rfl
  | succ k ih =>
      cases bytes with
      | nil => rfl
      | cons b bytes =>
          rw [List.drop_succ_cons, ← ih]
          rfl

/-- The two digits of the byte at a place. -/
theorem pair_encode {i : ℕ} (hi : i < bytes.length) :
    ((encode bytes).drop (2 * i)).take 2 = encode [bytes[i]] := by
  have hbyte : (bytes.drop i).take 1 = [bytes[i]] := by
    rw [List.drop_eq_getElem_cons hi]
    rfl
  rw [drop_encode, show 2 = 2 * 1 from rfl, take_encode, hbyte]

/-! ## Digits as numbers -/

/-- The number that digits write in base 16, read on from `n`, the most
significant one first; there is none if one of them is no digit. -/
def readOn? (n : ℕ) : List Char → Option ℕ
  | [] => some n
  | c :: rest => (value? c).bind fun v => readOn? (16 * n + v) rest

def number? (digits : List Char) : Option ℕ :=
  readOn? 0 digits

/-- The digits of bytes write in base 16 what the bytes write in base 256. -/
theorem readOn?_encode (n : ℕ) (bytes : List UInt8) :
    readOn? n (encode bytes) = some (byteNumber n bytes) := by
  induction bytes generalizing n with
  | nil => rfl
  | cons b bytes ih =>
      have hbyte : 16 * (16 * n + b.toNat / 16) + b.toNat % 16 =
          n * 256 + b.toNat := by omega
      rw [encode_cons, readOn?, value?_digitChar (high_lt b), Option.bind_some,
        readOn?, value?_digitChar (low_lt b), Option.bind_some, hbyte, ih]
      rfl

theorem number?_pair {i : ℕ} (hi : i < bytes.length) :
    number? (((encode bytes).drop (2 * i)).take 2) = some bytes[i].toNat := by
  rw [pair_encode hi, number?, readOn?_encode, byteNumber, List.foldl_cons,
    List.foldl_nil, Nat.zero_mul, Nat.zero_add]

/-! ## Digits as bytes -/

/-- Digits in pairs are those of some bytes. -/
theorem exists_encode (k : ℕ) (hlength : cs.length = 2 * k)
    (hdigits : ∀ c ∈ cs, c ∈ alphabet) :
    ∃ bytes, bytes.length = k ∧ encode bytes = cs := by
  induction k generalizing cs with
  | zero => exact ⟨[], rfl, (List.length_eq_zero_iff.mp hlength).symm⟩
  | succ k ih =>
      -- there is at least one pair, and it is the first byte
      match cs, hlength with
      | high :: low :: rest, hlength =>
          simp only [List.forall_mem_cons, mem_alphabet_iff] at hdigits
          obtain ⟨⟨h, hh, rfl⟩, ⟨l, hl, rfl⟩, hrest⟩ := hdigits
          have hlength : rest.length = 2 * k := by
            simp only [List.length_cons] at hlength
            omega
          obtain ⟨bytes, hbytes, rfl⟩ :=
            ih hlength fun c hc => mem_alphabet_iff.mpr (hrest c hc)
          have hvalue : (UInt8.ofNat (16 * h + l)).toNat = 16 * h + l := by
            rw [UInt8.toNat_ofNat']
            exact Nat.mod_eq_of_lt (by omega)
          refine ⟨UInt8.ofNat (16 * h + l) :: bytes,
            congrArg Nat.succ hbytes, ?_⟩
          rw [encode_cons, hvalue, Nat.mul_add_div (by decide),
            Nat.div_eq_of_lt hl, Nat.mul_add_mod, Nat.mod_eq_of_lt hl]
          rfl

end Hex

namespace Digest

variable {text : String}

/-! ## The digits of a digest -/

theorem toList_toHex (d : Digest) :
    d.toHex.toList = Hex.encode d.bytes.toList :=
  String.toList_ofList

theorem length_toHex (d : Digest) : d.toHex.length = 64 := by
  rw [← String.length_toList, toList_toHex, Hex.length_encode,
    Vector.length_toList]

/-- Reading what a digest shows gives the digest back. -/
theorem ofHex?_toHex (d : Digest) : ofHex? d.toHex = some d := by
  rw [ofHex?, toList_toHex, Hex.decode?_encode]
  show (if h : d.bytes.toList.length = 32 then _ else none) = _
  rw [dif_pos d.bytes.length_toList]
  exact congrArg (some ∘ Digest.mk)
    (Vector.toArray_inj.mp Array.toArray_toList)

theorem toHex_injective : Function.Injective toHex := by
  intro d e h
  have hread := congrArg ofHex? h
  rw [ofHex?_toHex, ofHex?_toHex] at hread
  exact Option.some.inj hread

/-- **What digests show.** The texts of 64 digits in lower case, and no
others. -/
theorem exists_toHex_iff :
    (∃ d : Digest, d.toHex = text) ↔
      text.length = 64 ∧ ∀ c ∈ text.toList, c ∈ Hex.alphabet := by
  constructor
  · rintro ⟨d, rfl⟩
    refine ⟨length_toHex d, fun c hc => ?_⟩
    rw [toList_toHex] at hc
    exact Hex.mem_alphabet_of_mem_encode hc
  · rintro ⟨hlength, hdigits⟩
    rw [← String.length_toList] at hlength
    obtain ⟨bytes, hbytes, hencode⟩ := Hex.exists_encode 32 hlength hdigits
    refine ⟨⟨⟨bytes.toArray, hbytes⟩⟩, ?_⟩
    rw [← String.toList_inj, toList_toHex]
    exact hencode

/-! ## The number of a digest -/

/-- One byte more is added below a number with room for it. -/
theorem toNat_mul_add {n : UInt64} (b : UInt8) (h : n.toNat < 256 ^ 7) :
    (n * 256 + b.toUInt64).toNat = n.toNat * 256 + b.toNat := by
  have hb := b.toNat_lt
  rw [UInt64.toNat_add, UInt64.toNat_mul, UInt8.toNat_toUInt64,
    show (256 : UInt64).toNat = 256 from rfl]
  omega

/-- Eight bytes fit: as long as not more than eight have been added up, counting
those that `n` may be made of, nothing is lost. -/
theorem toNat_foldl {n : UInt64} {k : ℕ} {bytes : List UInt8}
    (hn : n.toNat < 256 ^ k) (hlength : k + bytes.length ≤ 8) :
    (bytes.foldl (fun n b => n * 256 + b.toUInt64) n).toNat =
      byteNumber n.toNat bytes := by
  induction bytes generalizing n k with
  | nil => rfl
  | cons b bytes ih =>
      rw [List.length_cons] at hlength
      have hroom : n.toNat < 256 ^ 7 :=
        Nat.lt_of_lt_of_le hn (Nat.pow_le_pow_right (by decide) (by omega))
      have hsum := toNat_mul_add b hroom
      have hnext : (n * 256 + b.toUInt64).toNat < 256 ^ (k + 1) := by
        have hb := b.toNat_lt
        rw [hsum, Nat.pow_succ]
        omega
      rw [List.foldl_cons, ih hnext (by omega), hsum]
      rfl

theorem toNat_lead (d : Digest) :
    d.lead.toNat = byteNumber 0 (d.bytes.toList.take 8) :=
  toNat_foldl (k := 0) (by decide) (by simp)

/-- **The two renderings of a digest.** Whole, it is 64 digits in lower case,
and each two of them are the number of a byte, in order, so equal digits are
those of equal digests. In short, it is the number that the first sixteen of
these digits write. -/
theorem renderings_agree (d : Digest) :
    d.toHex.length = 64 ∧
      (∀ c ∈ d.toHex.toList, c ∈ Hex.alphabet) ∧
      (∀ i : Fin 32, Hex.number? ((d.toHex.toList.drop (2 * i)).take 2) =
        some d.bytes[i].toNat) ∧
      (∀ e : Digest, d.toHex = e.toHex ↔ d = e) ∧
      Hex.number? (d.toHex.toList.take 16) = some d.lead.toNat := by
  obtain ⟨hlength, hdigits⟩ := exists_toHex_iff.mp ⟨d, rfl⟩
  refine ⟨hlength, hdigits, ?_, fun e => toHex_injective.eq_iff, ?_⟩
  · intro i
    have hi : i < d.bytes.toList.length := by simp
    rw [toList_toHex, Hex.number?_pair hi]
    simp
  · rw [toList_toHex, show 16 = 2 * 8 from rfl, Hex.take_encode, Hex.number?,
      Hex.readOn?_encode, toNat_lead]

end Digest

end RollCall

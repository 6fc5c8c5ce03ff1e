import Mathlib.Data.List.Forall2
import Mathlib.Tactic.SplitIfs
import RollCall.Text.Utf8

/-!
# Decoding against encoding

`Completes` says which bytes finish an open sequence and what character they
make; `encodeChar_of_opened` and `encodeChar_cases` tie it to the encoding of
characters, with the overlong forms, the surrogates and the numbers that are too
large kept out on both sides. From there the machine is followed in two
directions. It reads back
every encoded text (`lenient_encode`), and of any bytes at all each character
it reads is one whose encoding stood there (`exists_stretches`). The invariant
of the second is `Holds`.
-/

namespace RollCall.Utf8

/-! ## Encodings by length -/

theorem toNat_ofNat_of_valid {n : ℕ} (h : n.isValidChar) :
    (Char.ofNat n).toNat = n := by
  rw [Char.ofNat, dif_pos h]
  rfl

theorem ofNat_eq_iff {n : ℕ} {b : UInt8} :
    UInt8.ofNat n = b ↔ n % 256 = b.toNat := by
  rw [← UInt8.toNat_inj, UInt8.toNat_ofNat']

theorem encodeChar_one {v : ℕ} (h : v < 0x80) :
    String.utf8EncodeChar (Char.ofNat v) = [UInt8.ofNat v] := by
  have hv : v.isValidChar := Or.inl (by omega)
  rw [String.utf8EncodeChar, Char.toNat_val, toNat_ofNat_of_valid hv,
    if_pos (by omega)]

theorem encodeChar_two {v : ℕ} (h : 0x80 ≤ v) (h' : v < 0x800) :
    String.utf8EncodeChar (Char.ofNat v) =
      [UInt8.ofNat (v / 64 % 0x20 + 0xC0), UInt8.ofNat (v % 0x40 + 0x80)] := by
  have hv : v.isValidChar := Or.inl (by omega)
  rw [String.utf8EncodeChar, Char.toNat_val, toNat_ofNat_of_valid hv,
    if_neg (by omega), if_pos (by omega)]

theorem encodeChar_three {v : ℕ} (hv : v.isValidChar) (h : 0x800 ≤ v)
    (h' : v < 0x10000) :
    String.utf8EncodeChar (Char.ofNat v) =
      [UInt8.ofNat (v / 4096 % 0x10 + 0xE0),
        UInt8.ofNat (v / 64 % 0x40 + 0x80), UInt8.ofNat (v % 0x40 + 0x80)] := by
  rw [String.utf8EncodeChar, Char.toNat_val, toNat_ofNat_of_valid hv,
    if_neg (by omega), if_neg (by omega), if_pos (by omega)]

theorem encodeChar_four {v : ℕ} (hv : v.isValidChar) (h : 0x10000 ≤ v) :
    String.utf8EncodeChar (Char.ofNat v) =
      [UInt8.ofNat (v / 262144 % 0x08 + 0xF0),
        UInt8.ofNat (v / 4096 % 0x40 + 0x80),
        UInt8.ofNat (v / 64 % 0x40 + 0x80), UInt8.ofNat (v % 0x40 + 0x80)] := by
  rw [String.utf8EncodeChar, Char.toNat_val, toNat_ofNat_of_valid hv,
    if_neg (by omega), if_neg (by omega), if_neg (by omega)]

/-! ## What finishes an open sequence -/

/-- The bytes finish the sequence, and the whole of it stands for the
character. -/
inductive Completes : Pending → List UInt8 → Char → Prop
  | last {p : Pending} {b : UInt8} (hmore : p.more = 0) (hlow : p.low ≤ b)
      (hhigh : b ≤ p.high) :
      Completes p [b] (Char.ofNat (64 * p.value + (b.toNat - 0x80)))
  | next {p : Pending} {b : UInt8} {more : ℕ} {tail : List UInt8} {c : Char}
      (hmore : p.more = more + 1) (hlow : p.low ≤ b) (hhigh : b ≤ p.high)
      (h : Completes ⟨64 * p.value + (b.toNat - 0x80), 0x80, 0xBF, more⟩
        tail c) : Completes p (b :: tail) c

section Completes

variable {value more : ℕ} {low high b : UInt8} {tail : List UInt8} {c : Char}

theorem completes_last :
    Completes ⟨value, low, high, 0⟩ tail c ↔
      ∃ x, tail = [x] ∧ (low.toNat ≤ x.toNat ∧ x.toNat ≤ high.toNat) ∧
        c = Char.ofNat (64 * value + (x.toNat - 0x80)) := by
  constructor
  · intro h
    cases h with
    | @last _ x _ hlow hhigh =>
        exact ⟨x, rfl, ⟨UInt8.le_iff_toNat_le.mp hlow,
          UInt8.le_iff_toNat_le.mp hhigh⟩, rfl⟩
    | next hmore => simp at hmore
  · rintro ⟨x, rfl, hx, hc⟩
    rw [hc]
    exact .last (p := ⟨value, low, high, 0⟩) rfl
      (UInt8.le_iff_toNat_le.mpr hx.1) (UInt8.le_iff_toNat_le.mpr hx.2)

theorem completes_next :
    Completes ⟨value, low, high, more + 1⟩ tail c ↔
      ∃ x rest, tail = x :: rest ∧
        (low.toNat ≤ x.toNat ∧ x.toNat ≤ high.toNat) ∧
        Completes ⟨64 * value + (x.toNat - 0x80), 0x80, 0xBF, more⟩ rest c := by
  constructor
  · intro h
    cases h with
    | last hmore => simp at hmore
    | @next _ x _ rest _ hmore hlow hhigh h =>
        cases hmore
        exact ⟨x, rest, rfl, ⟨UInt8.le_iff_toNat_le.mp hlow,
          UInt8.le_iff_toNat_le.mp hhigh⟩, h⟩
  · rintro ⟨x, rest, rfl, hx, h⟩
    exact .next (p := ⟨value, low, high, more + 1⟩) rfl
      (UInt8.le_iff_toNat_le.mpr hx.1) (UInt8.le_iff_toNat_le.mpr hx.2) h

/-! ## The three kinds of sequence -/

theorem opened?_eq_none (h : b.toNat < 0xC2 ∨ 0xF5 ≤ b.toNat) :
    opened? b = none := by
  simp only [opened?, UInt8.lt_iff_toNat_lt, UInt8.reduceToNat]
  split_ifs <;> first | rfl | omega

theorem opened?_two (h : 0xC2 ≤ b.toNat) (h' : b.toNat < 0xE0) :
    opened? b = some ⟨b.toNat - 0xC0, 0x80, 0xBF, 0⟩ := by
  simp [opened?, UInt8.lt_iff_toNat_lt, h', Nat.not_lt.mpr h]

theorem opened?_three (h : 0xE0 ≤ b.toNat) (h' : b.toNat < 0xF0) :
    opened? b = some ⟨b.toNat - 0xE0, if b = 0xE0 then 0xA0 else 0x80,
      if b = 0xED then 0x9F else 0xBF, 1⟩ := by
  simp [opened?, UInt8.lt_iff_toNat_lt, h', Nat.not_lt.mpr h]
  omega

theorem opened?_four (h : 0xF0 ≤ b.toNat) (h' : b.toNat < 0xF5) :
    opened? b = some ⟨b.toNat - 0xF0, if b = 0xF0 then 0x90 else 0x80,
      if b = 0xF4 then 0x8F else 0xBF, 2⟩ := by
  simp [opened?, UInt8.lt_iff_toNat_lt, h', Nat.not_lt.mpr h]
  omega

theorem opened?_cases {p : Pending} (h : opened? b = some p) :
    (0xC2 ≤ b.toNat ∧ b.toNat < 0xE0) ∨ (0xE0 ≤ b.toNat ∧ b.toNat < 0xF0) ∨
      (0xF0 ≤ b.toNat ∧ b.toNat < 0xF5) := by
  by_contra hrange
  rw [opened?_eq_none (by omega)] at h
  simp at h

/-- Every open sequence waits for a byte above the ASCII range. -/
theorem opened?_low {p : Pending} (h : opened? b = some p) : 0x80 ≤ p.low := by
  rcases opened?_cases h with ⟨h1, h2⟩ | ⟨h1, h2⟩ | ⟨h1, h2⟩
  · rw [opened?_two h1 h2, Option.some.injEq] at h
    subst h
    exact UInt8.le_refl _
  · rw [opened?_three h1 h2, Option.some.injEq] at h
    subst h
    dsimp only
    split_ifs <;> decide
  · rw [opened?_four h1 h2, Option.some.injEq] at h
    subst h
    dsimp only
    split_ifs <;> decide

theorem opens_two_iff (h : 0xC2 ≤ b.toNat) (h' : b.toNat < 0xE0) :
    (∃ p, opened? b = some p ∧ Completes p tail c) ↔
      ∃ x, tail = [x] ∧ (0x80 ≤ x.toNat ∧ x.toNat ≤ 0xBF) ∧
        c = Char.ofNat (64 * (b.toNat - 0xC0) + (x.toNat - 0x80)) := by
  simp only [opened?_two h h', Option.some.injEq, exists_eq_left',
    completes_last, UInt8.reduceToNat]

theorem opens_three_iff (h : 0xE0 ≤ b.toNat) (h' : b.toNat < 0xF0) :
    (∃ p, opened? b = some p ∧ Completes p tail c) ↔
      ∃ x y, tail = [x, y] ∧ (0x80 ≤ x.toNat ∧ x.toNat ≤ 0xBF) ∧
        (b.toNat = 0xE0 → 0xA0 ≤ x.toNat) ∧
        (b.toNat = 0xED → x.toNat ≤ 0x9F) ∧
        (0x80 ≤ y.toNat ∧ y.toNat ≤ 0xBF) ∧
        c = Char.ofNat (64 * (64 * (b.toNat - 0xE0) + (x.toNat - 0x80)) +
          (y.toNat - 0x80)) := by
  simp only [opened?_three h h', Option.some.injEq, exists_eq_left',
    completes_next, completes_last, UInt8.reduceToNat, apply_ite UInt8.toNat,
    ← UInt8.toNat_inj]
  constructor
  · rintro ⟨x, _, rfl, hx, y, rfl, hy, hc⟩
    exact ⟨x, y, rfl, by grind, by grind, by grind, hy, hc⟩
  · rintro ⟨x, y, rfl, hx, hlow, hhigh, hy, hc⟩
    exact ⟨x, [y], rfl, by grind, y, rfl, hy, hc⟩

theorem opens_four_iff (h : 0xF0 ≤ b.toNat) (h' : b.toNat < 0xF5) :
    (∃ p, opened? b = some p ∧ Completes p tail c) ↔
      ∃ x y z, tail = [x, y, z] ∧ (0x80 ≤ x.toNat ∧ x.toNat ≤ 0xBF) ∧
        (b.toNat = 0xF0 → 0x90 ≤ x.toNat) ∧
        (b.toNat = 0xF4 → x.toNat ≤ 0x8F) ∧
        (0x80 ≤ y.toNat ∧ y.toNat ≤ 0xBF) ∧
        (0x80 ≤ z.toNat ∧ z.toNat ≤ 0xBF) ∧
        c = Char.ofNat (64 * (64 * (64 * (b.toNat - 0xF0) + (x.toNat - 0x80)) +
          (y.toNat - 0x80)) + (z.toNat - 0x80)) := by
  simp only [opened?_four h h', Option.some.injEq, exists_eq_left',
    completes_next, completes_last, UInt8.reduceToNat, apply_ite UInt8.toNat,
    ← UInt8.toNat_inj]
  constructor
  · rintro ⟨x, _, rfl, hx, y, _, rfl, hy, z, rfl, hz, hc⟩
    exact ⟨x, y, z, rfl, by grind, by grind, by grind, hy, hz, hc⟩
  · rintro ⟨x, y, z, rfl, hx, hlow, hhigh, hy, hz, hc⟩
    exact ⟨x, [y, z], rfl, by grind, y, [z], rfl, hy, z, rfl, hz, hc⟩

end Completes

/-! ## The encoding of a character, from its first byte on -/

theorem encodeChar_of_opened {b : UInt8} {p : Pending} {tail : List UInt8}
    {c : Char} (hp : opened? b = some p) (h : Completes p tail c) :
    String.utf8EncodeChar c = b :: tail := by
  have hopens : ∃ p, opened? b = some p ∧ Completes p tail c := ⟨p, hp, h⟩
  rcases opened?_cases hp with ⟨h1, h2⟩ | ⟨h1, h2⟩ | ⟨h1, h2⟩
  · rw [opens_two_iff h1 h2] at hopens
    obtain ⟨x, rfl, hx, hc⟩ := hopens
    rw [hc, encodeChar_two (by omega) (by omega)]
    simp only [List.cons.injEq, ofNat_eq_iff, and_true]
    omega
  · rw [opens_three_iff h1 h2] at hopens
    obtain ⟨x, y, rfl, hx, hlow, hhigh, hy, hc⟩ := hopens
    -- `hhigh` keeps the surrogates out, and `hlow` what two bytes would do for
    have hv : (64 * (64 * (b.toNat - 0xE0) + (x.toNat - 0x80)) +
        (y.toNat - 0x80)).isValidChar := by
      unfold Nat.isValidChar
      omega
    rw [hc, encodeChar_three hv (by omega) (by omega)]
    simp only [List.cons.injEq, ofNat_eq_iff, and_true]
    omega
  · rw [opens_four_iff h1 h2] at hopens
    obtain ⟨x, y, z, rfl, hx, hlow, hhigh, hy, hz, hc⟩ := hopens
    -- here `hhigh` keeps out what lies past the last character
    have hv : (64 * (64 * (64 * (b.toNat - 0xF0) + (x.toNat - 0x80)) +
        (y.toNat - 0x80)) + (z.toNat - 0x80)).isValidChar := by
      unfold Nat.isValidChar
      omega
    rw [hc, encodeChar_four hv (by omega)]
    simp only [List.cons.injEq, ofNat_eq_iff, and_true]
    omega

/-- A character is one ASCII byte, or a byte that opens a sequence and the
bytes that finish it. -/
theorem encodeChar_cases (c : Char) :
    (∃ b : UInt8, b < 0x80 ∧ c = Char.ofNat b.toNat ∧
        String.utf8EncodeChar c = [b]) ∨
      ∃ b p tail, opened? b = some p ∧ Completes p tail c ∧
        String.utf8EncodeChar c = b :: tail := by
  have hv : c.toNat.isValidChar := c.valid
  rw [← c.ofNat_toNat]
  generalize c.toNat = v at hv
  have hrange : v < 0xD800 ∨ 0xDFFF < v ∧ v < 0x110000 := hv
  by_cases h1 : v < 0x80
  · left
    have hb : (UInt8.ofNat v).toNat = v := by
      rw [UInt8.toNat_ofNat']
      omega
    refine ⟨UInt8.ofNat v, ?_, by rw [hb], encodeChar_one h1⟩
    rw [UInt8.lt_iff_toNat_lt, hb]
    exact h1
  right
  -- The bytes get names of their own, so that what is left to show of each is
  -- linear in its value and that of `v`.
  by_cases h2 : v < 0x800
  · have henc := encodeChar_two (by omega) h2
    generalize hb : UInt8.ofNat (v / 64 % 0x20 + 0xC0) = b at henc
    generalize hx : UInt8.ofNat (v % 0x40 + 0x80) = x at henc
    rw [ofNat_eq_iff] at hb hx
    have hopens : ∃ p, opened? b = some p ∧ Completes p [x] (Char.ofNat v) :=
      (opens_two_iff (by omega) (by omega)).mpr
        ⟨x, rfl, by omega, congrArg Char.ofNat (by omega)⟩
    obtain ⟨p, hp, hc⟩ := hopens
    exact ⟨b, p, [x], hp, hc, henc⟩
  by_cases h3 : v < 0x10000
  · have henc := encodeChar_three hv (by omega) h3
    generalize hb : UInt8.ofNat (v / 4096 % 0x10 + 0xE0) = b at henc
    generalize hx : UInt8.ofNat (v / 64 % 0x40 + 0x80) = x at henc
    generalize hy : UInt8.ofNat (v % 0x40 + 0x80) = y at henc
    rw [ofNat_eq_iff] at hb hx hy
    have hopens : ∃ p, opened? b = some p ∧ Completes p [x, y] (Char.ofNat v) :=
      (opens_three_iff (by omega) (by omega)).mpr
        ⟨x, y, rfl, by omega, by omega, by omega, by omega,
          congrArg Char.ofNat (by omega)⟩
    obtain ⟨p, hp, hc⟩ := hopens
    exact ⟨b, p, [x, y], hp, hc, henc⟩
  · have henc := encodeChar_four hv (by omega)
    generalize hb : UInt8.ofNat (v / 262144 % 0x08 + 0xF0) = b at henc
    generalize hx : UInt8.ofNat (v / 4096 % 0x40 + 0x80) = x at henc
    generalize hy : UInt8.ofNat (v / 64 % 0x40 + 0x80) = y at henc
    generalize hz : UInt8.ofNat (v % 0x40 + 0x80) = z at henc
    rw [ofNat_eq_iff] at hb hx hy hz
    have hopens :
        ∃ p, opened? b = some p ∧ Completes p [x, y, z] (Char.ofNat v) :=
      (opens_four_iff (by omega) (by omega)).mpr
        ⟨x, y, z, rfl, by omega, by omega, by omega, by omega, by omega,
          congrArg Char.ofNat (by omega)⟩
    obtain ⟨p, hp, hc⟩ := hopens
    exact ⟨b, p, [x, y, z], hp, hc, henc⟩

/-! ## Reading what is encoded -/

theorem decodeFrom_completes {p : Pending} {tail : List UInt8} {c : Char}
    (h : Completes p tail c) (rest : List UInt8) :
    decodeFrom (some p) (tail ++ rest) = some c :: decodeFrom none rest := by
  induction h with
  | last hmore hlow hhigh => simp [decodeFrom, step, hlow, hhigh, hmore]
  | next hmore hlow hhigh _ ih =>
      rw [List.cons_append, decodeFrom]
      simp only [step, hlow, hhigh, hmore, and_self, if_true, List.nil_append]
      exact ih

theorem decodeFrom_encodeChar (c : Char) (rest : List UInt8) :
    decodeFrom none (String.utf8EncodeChar c ++ rest) =
      some c :: decodeFrom none rest := by
  rcases encodeChar_cases c with ⟨b, hb, hc, henc⟩ | ⟨b, p, tail, hp, h, henc⟩
  · rw [henc, List.singleton_append, decodeFrom, step, start, if_pos hb, hc]
    rfl
  · have hb : ¬ b < 0x80 := by
      rw [UInt8.lt_iff_toNat_lt]
      have := opened?_cases hp
      simp only [UInt8.reduceToNat]
      omega
    rw [henc, List.cons_append, decodeFrom, step, start, if_neg hb, hp]
    exact decodeFrom_completes h rest

theorem decode_encode_append (text : String) (rest : List UInt8) :
    decode (encode text ++ rest) = text.toList.map some ++ decode rest := by
  rw [decode_eq_decodeFrom, decode_eq_decodeFrom, encode_eq_flatMap]
  induction text.toList with
  | nil => rfl
  | cons c cs ih =>
      rw [List.flatMap_cons, List.append_assoc, decodeFrom_encodeChar, ih]
      rfl

theorem decode_encode (text : String) :
    decode (encode text) = text.toList.map some := by
  have hdecode := decode_encode_append text []
  rwa [List.append_nil, show decode [] = [] from rfl, List.append_nil]
    at hdecode

theorem toList_lenient (bytes : List UInt8) :
    (lenient bytes).toList = (decode bytes).map (·.getD replacement) :=
  String.toList_ofList

/-- **Reading gives back what was written.** -/
theorem lenient_encode (text : String) : lenient (encode text) = text := by
  rw [lenient, decode_encode, List.map_map]
  exact (congrArg String.ofList (List.map_id _)).trans String.ofList_toList

/-! ## Where the characters come from -/

/-- The stretch of bytes that an item was read from. Nothing is asked of a
damaged one. -/
def ReadFrom (item : Option Char) (stretch : List UInt8) : Prop :=
  ∀ c ∈ item, stretch = String.utf8EncodeChar c

/-- What is open after some bytes, where `seen` are those that no item has come
of yet. -/
inductive Holds : List UInt8 → Option Pending → Prop
  | nothing : Holds [] none
  | sequence {seen : List UInt8} {p : Pending} (hlow : 0x80 ≤ p.low)
      (hchar : ∀ tail c, Completes p tail c →
        String.utf8EncodeChar c = seen ++ tail) : Holds seen (some p)

theorem start_holds (b : UInt8) :
    ∃ stretches rest, List.Forall₂ ReadFrom (start b).1 stretches ∧
      stretches.flatten ++ rest = [b] ∧ Holds rest (start b).2 := by
  by_cases hb : b < 0x80
  · have hread : ReadFrom (some (Char.ofNat b.toNat)) [b] := by
      intro c hc
      rw [Option.mem_some] at hc
      rw [← hc, encodeChar_one (UInt8.lt_iff_toNat_lt.mp hb),
        UInt8.ofNat_toNat]
    rw [start, if_pos hb]
    exact ⟨[[b]], [], by simpa using hread, rfl, .nothing⟩
  · rw [start, if_neg hb]
    cases hp : opened? b with
    | some p =>
        exact ⟨[], [b], .nil, rfl, .sequence (opened?_low hp)
          fun tail c h => encodeChar_of_opened hp h⟩
    | none =>
        exact ⟨[[b]], [], by simp [ReadFrom], rfl, .nothing⟩

/-- One byte: what it completes was read from bytes that are no longer owed. -/
theorem step_holds {seen : List UInt8} {open? : Option Pending}
    (h : Holds seen open?) (b : UInt8) :
    ∃ stretches rest, List.Forall₂ ReadFrom (step open? b).1 stretches ∧
      stretches.flatten ++ rest = seen ++ [b] ∧
      Holds rest (step open? b).2 := by
  cases h with
  | nothing => exact start_holds b
  | @sequence _ p hlow hchar =>
      by_cases hb : p.low ≤ b ∧ b ≤ p.high
      · -- the sequence goes on
        rw [step, if_pos hb]
        cases hmore : p.more with
        | zero =>
            have hread := hchar _ _ (.last hmore hb.1 hb.2)
            refine ⟨[seen ++ [b]], [], ?_, by simp, .nothing⟩
            simpa [ReadFrom] using hread.symm
        | succ more =>
            refine ⟨[], seen ++ [b], .nil, rfl, .sequence (UInt8.le_refl _) ?_⟩
            intro tail c h
            rw [hchar _ _ (.next hmore hb.1 hb.2 h), List.append_assoc]
            rfl
      · -- all that was seen is one damaged stretch, and the byte starts afresh
        rw [step, if_neg hb]
        obtain ⟨stretches, rest, hread, hbytes, hrest⟩ := start_holds b
        refine ⟨seen :: stretches, rest, .cons (by simp [ReadFrom]) hread, ?_,
          hrest⟩
        rw [List.flatten_cons, List.append_assoc, hbytes]

theorem decodeFrom_holds {seen : List UInt8} {open? : Option Pending}
    (h : Holds seen open?) (bytes : List UInt8) :
    ∃ stretches, List.Forall₂ ReadFrom (decodeFrom open? bytes) stretches ∧
      stretches.flatten = seen ++ bytes := by
  induction bytes generalizing seen open? with
  | nil =>
      cases h with
      | nothing => exact ⟨[], .nil, rfl⟩
      | sequence =>
          -- the end of the bytes damages what is open
          exact ⟨[seen], .cons (by simp [ReadFrom]) .nil, by simp⟩
  | cons b bytes ih =>
      obtain ⟨stretches, rest, hread, hbytes, hrest⟩ := step_holds h b
      obtain ⟨later, hlater, hflat⟩ := ih hrest
      refine ⟨stretches ++ later, List.rel_append hread hlater, ?_⟩
      rw [List.flatten_append, hflat, ← List.append_assoc, hbytes,
        List.append_assoc]
      rfl

/-- **Every character was there.** The bytes fall into stretches, one for each
item that is read, and the stretch of a character is its encoding. -/
theorem exists_stretches (bytes : List UInt8) :
    ∃ stretches, List.Forall₂ ReadFrom (decode bytes) stretches ∧
      stretches.flatten = bytes := by
  rw [decode_eq_decodeFrom]
  exact decodeFrom_holds .nothing bytes

/-! ## ASCII bytes -/

/-- An ASCII byte ends whatever is open and stands for itself. -/
theorem step_ascii {seen : List UInt8} {open? : Option Pending}
    (h : Holds seen open?) {b : UInt8} (hb : b < 0x80) :
    step open? b = (finish open? ++ [some (Char.ofNat b.toNat)], none) := by
  have hstart : start b = ([some (Char.ofNat b.toNat)], none) := by
    rw [start, if_pos hb]
  cases h with
  | nothing => exact hstart
  | @sequence _ p hlow =>
      have hout : ¬ (p.low ≤ b ∧ b ≤ p.high) := by
        rintro ⟨hle, -⟩
        exact absurd (UInt8.le_trans hlow hle) (UInt8.not_le.mpr hb)
      rw [step, if_neg hout, hstart]
      rfl

theorem decodeFrom_append_ascii {seen : List UInt8} {open? : Option Pending}
    (h : Holds seen open?) {b : UInt8} (hb : b < 0x80)
    (bytes rest : List UInt8) :
    decodeFrom open? (bytes ++ b :: rest) =
      decodeFrom open? bytes ++
        some (Char.ofNat b.toNat) :: decodeFrom none rest := by
  induction bytes generalizing seen open? with
  | nil =>
      rw [List.nil_append, decodeFrom, decodeFrom, step_ascii h hb,
        List.append_assoc]
      rfl
  | cons x bytes ih =>
      obtain ⟨-, _, -, -, hrest⟩ := step_holds h x
      rw [List.cons_append, decodeFrom, decodeFrom, ih hrest,
        List.append_assoc]

/-- **Damage stops at an ASCII byte.** What comes before one and what comes
after it are read on their own. -/
theorem decode_append_ascii {b : UInt8} (hb : b < 0x80)
    (bytes rest : List UInt8) :
    decode (bytes ++ b :: rest) =
      decode bytes ++ some (Char.ofNat b.toNat) :: decode rest := by
  simp only [decode_eq_decodeFrom]
  exact decodeFrom_append_ascii .nothing hb bytes rest

end RollCall.Utf8

/-!
# UTF-8

Bytes are read one at a time. A byte stands for itself, or it opens a sequence that says how many
bytes follow and which range the next one lies in; the range is what keeps out overlong forms,
surrogates and numbers past the last character. A sequence that the next byte cannot continue is
damaged as far as it goes, and that byte is then read afresh. So damage never reaches past the byte
that shows it, and each stretch of it counts once.

Reading leniently puts a replacement character in the place of each such stretch.
-/

namespace RollCall.Utf8

/-- A sequence that is open: the bits read so far, the range of the next byte, and how many bytes
follow that one. -/
structure Pending where
  value : Nat
  low : UInt8
  high : UInt8
  more : Nat
  deriving DecidableEq

def opened? (b : UInt8) : Option Pending :=
  if b < 0xC2 then none
  else if b < 0xE0 then some ⟨b.toNat - 0xC0, 0x80, 0xBF, 0⟩
  else if b < 0xF0 then
    some ⟨b.toNat - 0xE0, if b = 0xE0 then 0xA0 else 0x80, if b = 0xED then 0x9F else 0xBF, 1⟩
  else if b < 0xF5 then
    some ⟨b.toNat - 0xF0, if b = 0xF0 then 0x90 else 0x80, if b = 0xF4 then 0x8F else 0xBF, 2⟩
  else none

/-- A byte between sequences: what it completes, `none` for damage, and the sequence it opens. -/
def start (b : UInt8) : List (Option Char) × Option Pending :=
  if b < 0x80 then ([some (Char.ofNat b.toNat)], none)
  else match opened? b with
    | some p => ([], some p)
    | none => ([none], none)

/-- The next byte: what it completes, and the sequence that is open after it. -/
def step (open? : Option Pending) (b : UInt8) : List (Option Char) × Option Pending :=
  match open? with
  | none => start b
  | some p =>
    if p.low ≤ b ∧ b ≤ p.high then
      let value := 64 * p.value + (b.toNat - 0x80)
      match p.more with
      | 0 => ([some (Char.ofNat value)], none)
      | more + 1 => ([], some ⟨value, 0x80, 0xBF, more⟩)
    else
      let afresh := start b
      (none :: afresh.1, afresh.2)

/-- The end of the bytes: a sequence that is still open is damaged. -/
def finish (open? : Option Pending) : List (Option Char) :=
  match open? with
  | none => []
  | some _ => [none]

/-- What is complete so far, and the sequence that is open, after one more byte. -/
def read (sofar : Array (Option Char) × Option Pending) (b : UInt8) :
    Array (Option Char) × Option Pending :=
  let next := step sofar.2 b
  (sofar.1.appendList next.1, next.2)

/-- The characters that bytes stand for, with `none` for each damaged stretch. -/
def decode (bytes : List UInt8) : List (Option Char) :=
  let last := bytes.foldl read (#[], none)
  last.1.toList ++ finish last.2

/-- The same byte by byte, where a sequence may be open before the first. -/
def decodeFrom (open? : Option Pending) : List UInt8 → List (Option Char)
  | [] => finish open?
  | b :: rest => (step open? b).1 ++ decodeFrom (step open? b).2 rest

theorem foldl_read (bytes : List UInt8) (items : Array (Option Char)) (open? : Option Pending) :
    (bytes.foldl read (items, open?)).1.toList ++ finish (bytes.foldl read (items, open?)).2 =
      items.toList ++ decodeFrom open? bytes := by
  induction bytes generalizing items open? with
  | nil => rfl
  | cons b rest ih =>
    rw [List.foldl_cons, read, ih]
    simp [decodeFrom]

theorem decode_eq_decodeFrom (bytes : List UInt8) : decode bytes = decodeFrom none bytes := by
  rw [decode, foldl_read]
  rfl

def replacement : Char := '\uFFFD'

def lenient (bytes : List UInt8) : String :=
  String.ofList ((decode bytes).map (·.getD replacement))

def encode (text : String) : List UInt8 :=
  text.toByteArray.data.toList

/-- The bytes of a text are those of its characters, one after another. -/
theorem encode_eq_flatMap (text : String) :
    encode text = text.toList.flatMap String.utf8EncodeChar := by
  rw [encode, ← String.ofList_toList (s := text), String.toByteArray_ofList]
  simp [List.utf8Encode]

end RollCall.Utf8

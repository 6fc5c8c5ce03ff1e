import RollCall.Digest
import RollCall.Word

/-!
# SHA-256

The message is closed by a byte `0x80`, filled up with zero bytes and ended by its length in bits,
eight bytes long, so that it makes up whole blocks of 64 bytes. Each block is stretched to 64 words
and stirred into a state of eight words; the last state, byte by byte, is the digest.
-/

namespace RollCall.Sha256

/-- The eight words that a block is stirred into. -/
structure State where
  a : UInt32
  b : UInt32
  c : UInt32
  d : UInt32
  e : UInt32
  f : UInt32
  g : UInt32
  h : UInt32

def initial : State :=
  ⟨0x6a09e667, 0xbb67ae85, 0x3c6ef372, 0xa54ff53a, 0x510e527f, 0x9b05688c, 0x1f83d9ab, 0x5be0cd19⟩

def roundConstants : Vector UInt32 64 := #v[
  0x428a2f98, 0x71374491, 0xb5c0fbcf, 0xe9b5dba5, 0x3956c25b, 0x59f111f1, 0x923f82a4, 0xab1c5ed5,
  0xd807aa98, 0x12835b01, 0x243185be, 0x550c7dc3, 0x72be5d74, 0x80deb1fe, 0x9bdc06a7, 0xc19bf174,
  0xe49b69c1, 0xefbe4786, 0x0fc19dc6, 0x240ca1cc, 0x2de92c6f, 0x4a7484aa, 0x5cb0a9dc, 0x76f988da,
  0x983e5152, 0xa831c66d, 0xb00327c8, 0xbf597fc7, 0xc6e00bf3, 0xd5a79147, 0x06ca6351, 0x14292967,
  0x27b70a85, 0x2e1b2138, 0x4d2c6dfc, 0x53380d13, 0x650a7354, 0x766a0abb, 0x81c2c92e, 0x92722c85,
  0xa2bfe8a1, 0xa81a664b, 0xc24b8b70, 0xc76c51a3, 0xd192e819, 0xd6990624, 0xf40e3585, 0x106aa070,
  0x19a4c116, 0x1e376c08, 0x2748774c, 0x34b0bcb5, 0x391c0cb3, 0x4ed8aa4a, 0x5b9cca4f, 0x682e6ff3,
  0x748f82ee, 0x78a5636f, 0x84c87814, 0x8cc70208, 0x90befffa, 0xa4506ceb, 0xbef9a3f7, 0xc67178f2]

/-- The bits of `y` where `x` is set and those of `z` where it is not. -/
def choose (x y z : UInt32) : UInt32 :=
  (x &&& y) ^^^ (~~~x &&& z)

/-- Each bit as at least two of the three words have it. -/
def majority (x y z : UInt32) : UInt32 :=
  (x &&& y) ^^^ (x &&& z) ^^^ (y &&& z)

/-- The mixing of the first word of a state. -/
def upperSigma₀ (x : UInt32) : UInt32 :=
  Word.rotateRight x 2 ^^^ Word.rotateRight x 13 ^^^ Word.rotateRight x 22

/-- The mixing of the fifth word of a state. -/
def upperSigma₁ (x : UInt32) : UInt32 :=
  Word.rotateRight x 6 ^^^ Word.rotateRight x 11 ^^^ Word.rotateRight x 25

/-- The mixing of the schedule's word fifteen places back. -/
def lowerSigma₀ (x : UInt32) : UInt32 :=
  Word.rotateRight x 7 ^^^ Word.rotateRight x 18 ^^^ x >>> 3

/-- The mixing of the schedule's word two places back. -/
def lowerSigma₁ (x : UInt32) : UInt32 :=
  Word.rotateRight x 17 ^^^ Word.rotateRight x 19 ^^^ x >>> 10

/-- One round, with its constant and its word of the schedule. -/
def State.round (s : State) (constant word : UInt32) : State :=
  let t₁ := s.h + upperSigma₁ s.e + choose s.e s.f s.g + constant + word
  let t₂ := upperSigma₀ s.a + majority s.a s.b s.c
  ⟨t₁ + t₂, s.a, s.b, s.c, s.d + t₁, s.e, s.f, s.g⟩

def State.add (s t : State) : State :=
  ⟨s.a + t.a, s.b + t.b, s.c + t.c, s.d + t.d, s.e + t.e, s.f + t.f, s.g + t.g, s.h + t.h⟩

/-- A block stretched by `n` further words, each made from four words before it. -/
def stretch (block : Vector UInt32 16) : (n : Nat) → Vector UInt32 (16 + n)
  | 0 => block
  | n + 1 =>
    let w := stretch block n
    w.push (lowerSigma₁ w[n + 14] + w[n + 9] + lowerSigma₀ w[n + 1] + w[n])

def State.absorb (s : State) (block : Vector UInt32 16) : State :=
  ((roundConstants.zip (stretch block 48)).foldl (fun t kw => t.round kw.1 kw.2) s).add s

/-- How many blocks a message of `size` bytes takes, with its closing byte and its length. -/
def blockCount (size : Nat) : Nat :=
  (size + 8) / 64 + 1

/-- The byte at position `i` of the padded message. -/
def paddedByte (message : ByteArray) (i : Nat) : UInt8 :=
  let last := 64 * blockCount message.size - 1
  if h : i < message.size then message[i]
  else if i = message.size then 0x80
  else if i + 8 ≤ last then 0
  else UInt8.ofNat ((8 * message.size) >>> (8 * (last - i)))

/-- The words of block `k` of the padded message. -/
def block (message : ByteArray) (k : Nat) : Vector UInt32 16 :=
  Vector.ofFn fun t =>
    let i := 64 * k + 4 * t
    Word.ofBytes (paddedByte message i) (paddedByte message (i + 1))
      (paddedByte message (i + 2)) (paddedByte message (i + 3))

def State.digest (s : State) : Digest :=
  ⟨(#v[s.a, s.b, s.c, s.d, s.e, s.f, s.g, s.h].map Word.bytes).flatten⟩

def hash (message : ByteArray) : Digest :=
  ((blockCount message.size).fold (fun k _ s => s.absorb (block message k)) initial).digest

end RollCall.Sha256

/-!
# 32-bit words

Rotation of a word, and the passage between a word and its four bytes. Both the digest and the
keystream are made of such words: the digest reads its bytes with the most significant one first,
the keystream with the least significant one first.
-/

namespace RollCall.Word

def rotateLeft (x n : UInt32) : UInt32 :=
  x <<< n ||| x >>> (32 - n)

def rotateRight (x n : UInt32) : UInt32 :=
  x >>> n ||| x <<< (32 - n)

/-- The word whose four bytes are these, the most significant one first. -/
def ofBytes (b₃ b₂ b₁ b₀ : UInt8) : UInt32 :=
  b₃.toUInt32 <<< 24 ||| b₂.toUInt32 <<< 16 ||| b₁.toUInt32 <<< 8 ||| b₀.toUInt32

/-- The four bytes of a word, the most significant one first. -/
def bytes (x : UInt32) : Vector UInt8 4 :=
  #v[(x >>> 24).toUInt8, (x >>> 16).toUInt8, (x >>> 8).toUInt8, x.toUInt8]

end RollCall.Word

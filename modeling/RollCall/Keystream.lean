import RollCall.Keystream.ChaCha20
import RollCall.Seed
import RollCall.Source

/-!
# Keystreams

A digest keys an endless stream of words: the words of its ChaCha20 blocks 0, 1, 2 and so on, in
order. The stream is made a block at a time, and the words of a block wait until they are asked
for; a new block is made only when none is left.
-/

namespace RollCall

/-- A position in the stream of a key: the number of the block to be made next, and what is left of
the block made last. -/
structure Keystream where
  key : Vector UInt32 8
  counter : UInt64 := 0
  waiting : List UInt32 := []

namespace Keystream

/-- The start of the stream that a digest keys: each key word is four bytes of the digest, the
least significant one first. -/
def ofDigest (d : Digest) : Keystream where
  key := Vector.ofFn fun i : Fin 8 =>
    let first := 4 * i.val
    Word.ofBytes d.bytes[first + 3] d.bytes[first + 2] d.bytes[first + 1] d.bytes[first]

def ofSeed (s : Seed) : Keystream :=
  ofDigest s.digest

/-- The next word: one that waits, or else the first word of a new block. -/
def next (k : Keystream) : UInt32 × Keystream :=
  match k.waiting with
  | word :: rest => (word, { k with waiting := rest })
  | [] =>
    let block := ChaCha20.block k.key k.counter
    (block[0], { k with counter := k.counter + 1, waiting := block.toList.tail })

instance : WordSource Keystream where
  next := next

end Keystream

end RollCall

import RollCall.Word

/-!
# ChaCha20 blocks

A key of eight words and a block counter give sixteen words. The words start as four constants, the
key, the counter with its low half first, and two zeros; ten double rounds stir them, and the words
they started as are added at the end. Blocks depend on nothing else, so any block can be computed
without the ones before it.
-/

namespace RollCall.ChaCha20

def initial (key : Vector UInt32 8) (counter : UInt64) : Vector UInt32 16 :=
  (#v[0x61707865, 0x3320646e, 0x79622d32, 0x6b206574] : Vector UInt32 4) ++ key ++
    #v[counter.toUInt32, (counter >>> 32).toUInt32, 0, 0]

/-- Adds word `b` to word `a`, and moves the bits of word `d`, after `a` is laid over it, `n` up. -/
def stir (a b d : Fin 16) (n : UInt32) (s : Vector UInt32 16) : Vector UInt32 16 :=
  let s := s.set a (s[a] + s[b])
  s.set d (Word.rotateLeft (s[d] ^^^ s[a]) n)

def quarterRound (a b c d : Fin 16) (s : Vector UInt32 16) : Vector UInt32 16 :=
  stir c d b 7 (stir a b d 8 (stir c d b 12 (stir a b d 16 s)))

/-- A round on the four columns of the square of words. -/
def columnRound (s : Vector UInt32 16) : Vector UInt32 16 :=
  quarterRound 3 7 11 15 (quarterRound 2 6 10 14 (quarterRound 1 5 9 13 (quarterRound 0 4 8 12 s)))

/-- A round on the four diagonals of the square of words. -/
def diagonalRound (s : Vector UInt32 16) : Vector UInt32 16 :=
  quarterRound 3 4 9 14 (quarterRound 2 7 8 13 (quarterRound 1 6 11 12 (quarterRound 0 5 10 15 s)))

def block (key : Vector UInt32 8) (counter : UInt64) : Vector UInt32 16 :=
  let start := initial key counter
  let stirred := Nat.repeat (fun s => diagonalRound (columnRound s)) 10 start
  stirred.zipWith (· + ·) start

end RollCall.ChaCha20

import RollCall.Text.Hex

/-!
# Digests

A digest is 32 bytes, and it is shown in two ways: whole, as 64 hexadecimal digits, and in short,
as the number that its first eight bytes write with the most significant one first.
-/

namespace RollCall

/-- What a seed is reduced to: the key of its word stream. -/
structure Digest where
  bytes : Vector UInt8 32
  deriving DecidableEq

namespace Digest

def toHex (d : Digest) : String :=
  String.ofList (Hex.encode d.bytes.toList)

/-- The digest that 64 hexadecimal digits write, in either case. -/
def ofHex? (text : String) : Option Digest := do
  let bytes ← Hex.decode? text.toList
  if h : bytes.length = 32 then return ⟨⟨bytes.toArray, by simp [h]⟩⟩ else none

/-- The number that the first eight bytes write, the most significant one first. -/
def lead (d : Digest) : UInt64 :=
  (d.bytes.toList.take 8).foldl (fun n b => n * 256 + b.toUInt64) 0

end Digest

end RollCall

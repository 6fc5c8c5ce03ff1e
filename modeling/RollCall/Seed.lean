import RollCall.Digest.Sha256

/-!
# Seeds

A seed is any text. All that follows from it follows from its digest, so seeds of equal text name
equal orders everywhere.
-/

namespace RollCall

/-- The text that names an order. -/
structure Seed where
  text : String
  deriving DecidableEq

def Seed.digest (s : Seed) : Digest :=
  Sha256.hash s.text.toByteArray

end RollCall

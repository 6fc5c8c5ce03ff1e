import RollCall.CommandLine

/-!
# The program

Fetches the arguments and the input, and prints what the command line makes of them. The arguments
come without the program's own name, so the standard one stands for it.
-/

namespace RollCall

def readInput : IO (List Delivery) := do
  try
    let bytes ← (← IO.getStdin).readBinToEnd
    return [.bytes bytes.data.toList]
  catch failure => return [.failure (toString failure)]

end RollCall

open RollCall in
/-- Runs the program. A fault never happens; it would end the program with code 101. -/
def main (arguments : List String) : IO UInt32 := do
  let arguments := (Invocation.standardProgram :: arguments).map Utf8.encode
  let stdin ← if CommandLine.readsInput arguments then readInput else pure []
  match CommandLine.execute arguments stdin with
  | .error fault =>
    IO.eprintln fault.message
    return 101
  | .ok done =>
    try
      let stdout ← IO.getStdout
      stdout.write done.stdout.toByteArray
      stdout.flush
      IO.eprint done.stderr
      return done.code.toUInt32
    catch failure =>
      IO.eprintln (toString failure)
      return (Failure.channel (toString failure)).exitCode.toUInt32

import AluPlacement.CommandLine

/-! # The executable

Prints what `CommandLine.run` answers. -/

open AluPlacement

/-- Run the command on the arguments of the process. -/
def main (args : List String) : IO UInt32 := do
  let outcome := CommandLine.run args
  IO.print outcome.output
  for message in outcome.errors do
    IO.eprintln message
  if outcome.code = 2 then
    IO.eprintln "usage: alumap [--table] [QUERY]..."
  return UInt32.ofNat outcome.code

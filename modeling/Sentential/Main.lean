import Sentential.CommandLine.Run

/-!
# The program

Prints the report on a formula, or complains on the error stream.  Nothing is logged, whatever
the log level is.
-/

/-- Runs the program on its arguments. -/
def main (args : List String) : IO UInt32 := do
  let outcome := Sentential.CommandLine.run args
  IO.print outcome.output
  match outcome.complaint? with
  | some complaint => IO.eprintln complaint
  | none => pure ()
  return UInt32.ofNat outcome.exitCode

import Availability.CommandLine

/-! The executable: prints what the command line comes to. -/

/-- Runs the command line and hands its exit code to the shell. -/
def main (args : List String) : IO UInt32 := do
  let outcome := Availability.CommandLine.run args
  (← IO.getStdout).putStr outcome.stdout
  (← IO.getStderr).putStr outcome.stderr
  return outcome.exitCode.toUInt32

import LintDebt.Cli.Rehearsal

/-! # The program

The arguments are a command line, and standard input holds the description of a project on one line.
The result of the rehearsal goes to standard output, and its exit code is the program's. -/

open LintDebt

def main (words : List String) : IO UInt32 := do
  let description ← (← IO.getStdin).getLine
  match Cli.Rehearsal.playText description words with
  | .ok (result, code) =>
    IO.println result
    return code.toUInt32
  | .error message =>
    IO.eprintln message
    return 2

import StreamFanout.Demonstration

/-!
The command line of the demonstration: number of channels, number of groups, length of a group.
-/

open StreamFanout

/-- Prints what the consumers tell and the summary. -/
def main (args : List String) : IO UInt32 := do
  match Demonstration.run (.ofArgs args) with
  | .ok output =>
    for line in output.lines do
      IO.println line
    IO.println output.summary
    pure 0
  | .error e =>
    IO.eprintln e.message
    pure 1

import DeclVisibility.CommandLine.Invocation

/-!
# The program

Runs a command line on the real files and streams. A batch is answered line by line, as the lines
come in.
-/

namespace DeclVisibility

open CommandLine

/-- All that is left of a stream. -/
partial def readAll (stream : IO.FS.Stream) : IO String := do
  let line ← stream.getLine
  if line.isEmpty then pure line
  else
    let rest ← readAll stream
    pure (line ++ rest)

/-- The files of the working directory, and standard input. -/
def realHost : Host IO where
  readFile name := do
    try
      let text ← IO.FS.readFile name
      pure (some text)
    catch _ => pure none
  writeFile name text := do
    try
      IO.FS.writeFile name text
      pure true
    catch _ => pure false
  readInput := do
    let stream ← IO.getStdin
    readAll stream

/-- Prints what came of a command line. -/
def finish (outcome : Outcome) : IO UInt32 := do
  IO.print outcome.text
  if let some failure := outcome.failure? then
    IO.eprintln ("ERROR: " ++ failure.shown)
  pure outcome.code.toUInt32

/-- Answers the lines of a stream up to the one that ends the batch; they are counted. -/
partial def serve (stream : IO.FS.Stream) (number : Nat) : IO UInt32 := do
  let line ← stream.getLine
  let plan := Plan.ofLines [line]
  for request in plan.requests do
    let row ← request.run realHost (Doc.ofNat number)
    IO.print row.line
    (← IO.getStdout).flush
  if plan.requests.isEmpty then finish { failure? := plan.failure? }
  else serve stream (number + 1)

/-- Runs a command line. -/
def start (words : List String) : IO UInt32 := do
  match Invocation.ofWords words with
  | .batch =>
    let stream ← IO.getStdin
    serve stream 1
  | invocation =>
    let outcome ← invocation.run realHost
    finish outcome

end DeclVisibility

/-- Runs the program, and ends with its code. -/
def main (words : List String) : IO UInt32 := DeclVisibility.start words

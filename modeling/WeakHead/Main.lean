import WeakHead.CommandLine

/-!
# The program

Reads the arguments and the lines of the input, and writes what the library answers. Lines are
answered as they come.
-/

namespace WeakHead.CommandLine

/-- The number of steps for which a reduction without a budget is watched. -/
def watchedSteps : Nat := 4611686018427387904

/-- Writes outputs in order. -/
def writeAll (outputs : List Output) : IO Unit := do
  for output in outputs do
    match output with
    | .out text =>
      IO.print text
      (← IO.getStdout).flush
    | .err text => IO.eprint text

/-- Feeds a session with lines until the input ends. -/
partial def converse (session : Session) : IO Exit := do
  let line ← (← IO.getStdin).getLine
  if line.isEmpty then
    writeAll Session.farewell
    return .success
  match Text.deliver (String.join (Text.inputLines line)) with
  | none => return .crashed
  | some line =>
    let (session, reply) := session.feed watchedSteps line
    writeAll reply.outputs
    match reply.ending with
    | .answered | .refused => converse session
    | .crashed => return .crashed
    | .unsettled => return .unsettled

end WeakHead.CommandLine

/-- The program. -/
def main (arguments : List String) : IO UInt32 := do
  match WeakHead.Options.read arguments with
  | .error e =>
    IO.eprintln e.message
    return WeakHead.Exit.usage.code.toUInt32
  | .ok o =>
    let settings := o.settings
    WeakHead.CommandLine.writeAll (WeakHead.CommandLine.startLog settings)
    match o.source with
    | some source =>
      let t :=
        WeakHead.CommandLine.evaluateOnce WeakHead.CommandLine.watchedSteps settings source
      WeakHead.CommandLine.writeAll t.outputs
      return t.exit.code.toUInt32
    | none =>
      WeakHead.CommandLine.writeAll WeakHead.Session.greeting
      return (← WeakHead.CommandLine.converse (.start settings)).code.toUInt32

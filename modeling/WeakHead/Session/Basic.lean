import WeakHead.Session.Command

/-!
# Sessions

A session takes lines one by one. A line that ends with a backslash is continued by the next one:
the backslash becomes a line feed, and the lines make one input together. Every completed input has
its reply, and none of them depends on the inputs before it.
-/

namespace WeakHead

/-- A session between two lines. -/
structure Session where
  settings : Settings
  /-- The lines that wait for their continuation, joined. -/
  held : String
deriving DecidableEq, Repr, Inhabited

/-- How a program ends. -/
inductive Exit where
  | success
  /-- The only input had a syntax error. -/
  | refused
  /-- The command line could not be understood. -/
  | usage
  | crashed
  /-- A reduction without a budget was not watched to its end. -/
  | unsettled
deriving DecidableEq, Repr

/-- The exit code of a program. -/
def Exit.code : Exit → Nat
  | success => 0
  | refused => 1
  | usage => 2
  | crashed => 101
  | unsettled => 124

/-- What a program writes, in order, and how it ends. -/
structure Transcript where
  outputs : List Output
  exit : Exit
deriving DecidableEq, Repr

namespace Session

/-- A session before the first line. -/
def start (settings : Settings) : Session :=
  ⟨settings, ""⟩

/-- The greeting of a session. -/
def greeting : List Output :=
  [.line "Hi, this is an untyped lambda calculus REPL. :h to show help", .line ""]

/-- The farewell of a session. -/
def farewell : List Output :=
  [.line "Bye!"]

/-- The line without the backslash at its end, if it has one. -/
def continued? (line : String) : Option String :=
  match line.toList.reverse with
  | '\\' :: rest => some (String.ofList rest.reverse)
  | _ => none

/-- Takes a line. If it completes an input, that input is given. -/
def accept (s : Session) (line : String) : Session × Option String :=
  match continued? line with
  | some part => ({ s with held := s.held ++ part ++ "\n" }, none)
  | none => ({ s with held := "" }, some (s.held ++ line))

/-- Takes a line and replies to the input that it completes. -/
def feed (fuel : Nat) (s : Session) (line : String) : Session × Reply :=
  match s.accept line with
  | (s, some input) => (s, Command.reply fuel s.settings input)
  | (s, none) => (s, ⟨[], .answered⟩)

/-- What is written from here on if these are the remaining lines, with `last` behind them. -/
def feedAll (fuel : Nat) (last : Transcript) (s : Session) : List String → Transcript
  | [] => last
  | line :: rest =>
    let (s, reply) := s.feed fuel line
    match reply.ending with
    | .answered | .refused =>
      let t := s.feedAll fuel last rest
      ⟨reply.outputs ++ t.outputs, t.exit⟩
    | .crashed => ⟨reply.outputs, .crashed⟩
    | .unsettled => ⟨reply.outputs, .unsettled⟩

/-- A session over some lines that ends with `last`. -/
def runUntil (fuel : Nat) (settings : Settings) (last : Transcript) (lines : List String) :
    Transcript :=
  let t := (start settings).feedAll fuel last lines
  ⟨greeting ++ t.outputs, t.exit⟩

/-- The whole session over some lines. -/
def run (fuel : Nat) (settings : Settings) (lines : List String) : Transcript :=
  runUntil fuel settings ⟨farewell, .success⟩ lines

/-- The whole session over some lines, behind which a line is lost. -/
def runInterrupted (fuel : Nat) (settings : Settings) (lines : List String) : Transcript :=
  runUntil fuel settings ⟨[], .crashed⟩ lines

end Session

end WeakHead

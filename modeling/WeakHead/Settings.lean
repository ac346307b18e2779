import WeakHead.Text.Quoted

/-!
# Settings

What can be chosen for a session: the budget of steps, the file for the history of inputs, and how
much is logged.
-/

namespace WeakHead

/-- How much is logged; each level includes the ones before it. -/
inductive LogLevel where
  | warn
  | info
  | debug
  | trace
deriving DecidableEq, Repr, Inhabited

namespace LogLevel

/-- The place of a level in their order. -/
def rank : LogLevel → Nat
  | warn => 0
  | info => 1
  | debug => 2
  | trace => 3

/-- The level that a number of requests for more detail leads to. -/
def ofVerbosity : Nat → LogLevel
  | 0 => warn
  | 1 => info
  | 2 => debug
  | _ => trace

/-- The name of a level in small letters. -/
def name : LogLevel → String
  | warn => "warn"
  | info => "info"
  | debug => "debug"
  | trace => "trace"

/-- The name of a level in capitals. -/
def tag : LogLevel → String
  | warn => "WARN"
  | info => "INFO"
  | debug => "DEBUG"
  | trace => "TRACE"

end LogLevel

/-- What is chosen for a session. -/
structure Settings where
  /-- The budget of steps of one evaluation, `none` for no budget. -/
  stepLimit : Option Nat
  /-- The file for the history of inputs. -/
  history : Option String
  logLevel : LogLevel
deriving DecidableEq, Repr, Inhabited

namespace Settings

/-- The budget of steps if none is chosen. -/
def defaultStepLimit : Nat := 10000

/-- The history file if none is chosen. -/
def defaultHistory : String := "/tmp/lambda.history"

/-- The settings if nothing is chosen. -/
def default : Settings :=
  ⟨some defaultStepLimit, some defaultHistory, .warn⟩

/-- Chooses a budget; zero stands for none. -/
def setStepLimit (s : Settings) (limit : Nat) : Settings :=
  { s with stepLimit := if limit = 0 then none else some limit }

/-- Chooses the level of logging by the number of requests for more detail. -/
def setVerbosity (s : Settings) (verbosity : Nat) : Settings :=
  { s with logLevel := .ofVerbosity verbosity }

/-- Chooses the history file. -/
def setHistory (s : Settings) (history : String) : Settings :=
  { s with history := some history }

/-- The settings in full, as the log shows them. -/
def describe (s : Settings) : String :=
  let limit := match s.stepLimit with
    | some limit => "Some(" ++ toString limit ++ ")"
    | none => "None"
  let history := match s.history with
    | some path => "Some(" ++ Text.quoted path ++ ")"
    | none => "None"
  "Config \x7b step_limit: " ++ limit ++ ", history: " ++ history ++ ", log_level: LevelFilter::" ++
    s.logLevel.tag ++ " \x7d"

end Settings

end WeakHead

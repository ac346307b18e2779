import WeakHead.Session.Basic
import WeakHead.Text.Backspace
import WeakHead.Text.Lines

/-!
# The command line

    --eval SOURCE, -e SOURCE    evaluate one source and exit
    --step-limit N              the budget of steps, 0 for none
    --history FILE              the file for the history of inputs
    --verbose, -v               log more; may be repeated

The value of an option follows as the next argument, or after `=`; after a short option it may also
follow at once. Short options can be written together. Without a source to evaluate the lines of the
input make a session.
-/

namespace WeakHead

/-- What the arguments ask for. -/
structure Options where
  stepLimit : Option Nat
  history : Option String
  verbosity : Nat
  source : Option String
deriving DecidableEq, Repr, Inhabited

/-- An option that takes a value. -/
inductive ValuedOption where
  | stepLimit
  | history
  | eval
deriving DecidableEq, Repr

/-- The reason why arguments are not understood. -/
inductive UsageError where
  | unknownArgument (argument : String)
  | missingValue (option : ValuedOption)
  | superfluousValue (value : String)
  | repeated (option : ValuedOption)
  | notANumber (value : String)
deriving DecidableEq, Repr

/-- The name of an option. -/
def ValuedOption.text : ValuedOption → String
  | stepLimit => "--step-limit"
  | history => "--history"
  | eval => "--eval"

/-- The message for arguments that are not understood. -/
def UsageError.message : UsageError → String
  | unknownArgument argument => "error: unexpected argument " ++ Text.quoted argument
  | missingValue option => "error: a value is required for " ++ option.text
  | superfluousValue value => "error: unexpected value " ++ Text.quoted value
  | repeated option => "error: " ++ option.text ++ " cannot be used multiple times"
  | notANumber value => "error: invalid number " ++ Text.quoted value

/-- The number that a text of decimal digits, with or without a plus sign, stands for. It has to be
less than `indexBound`. -/
def readNumber? (text : String) : Option Nat :=
  let digits := match text.toList with
    | '+' :: rest => rest
    | cs => cs
  if digits.isEmpty || !digits.all Char.isDigit then none
  else
    let n := digits.foldl (fun n d => n * 10 + (d.toNat - 48)) 0
    if n < indexBound then some n else none

namespace Options

/-- The options of an empty command line. -/
def unset : Options :=
  ⟨none, none, 0, none⟩

/-- Gives an option its value. -/
def give (o : Options) (value : String) : ValuedOption → Except UsageError Options
  | .stepLimit =>
    if o.stepLimit.isSome then .error (.repeated .stepLimit)
    else
      match readNumber? value with
      | some n => .ok { o with stepLimit := some n }
      | _ => .error (.notANumber value)
  | .history =>
    if o.history.isSome then .error (.repeated .history)
    else .ok { o with history := some value }
  | .eval =>
    if o.source.isSome then .error (.repeated .eval)
    else .ok { o with source := some value }

/-- Asks for more detail once. -/
def moreVerbose (o : Options) : Options :=
  { o with verbosity := o.verbosity + 1 }

/-- Reads short options written together. An option whose value is not there is given as well. -/
def readShort (o : Options) : List Char → Except UsageError (Options × Option ValuedOption)
  | [] => .ok (o, none)
  | 'v' :: rest => readShort o.moreVerbose rest
  | ['e'] => .ok (o, some .eval)
  | 'e' :: '=' :: value => do return (← o.give (String.ofList value) .eval, none)
  | 'e' :: value => do return (← o.give (String.ofList value) .eval, none)
  | rest => .error (.unknownArgument ("-" ++ String.ofList rest))

/-- The long option with a name, if it takes a value. -/
def valued? (name : String) : Option ValuedOption :=
  if name = "step-limit" then some .stepLimit
  else if name = "history" then some .history
  else if name = "eval" then some .eval
  else none

/-- Reads a long option, given without its dashes. -/
def readLong (o : Options) (text : String) : Except UsageError (Options × Option ValuedOption) :=
  let name := String.ofList (text.toList.takeWhile fun c => c != '=')
  match valued? name, text.toList.dropWhile fun c => c != '=' with
  | some option, [] => .ok (o, some option)
  | some option, _ :: value => do return (← o.give (String.ofList value) option, none)
  | none, value =>
    if name = "verbose" then
      if value.isEmpty then .ok (o.moreVerbose, none)
      else .error (.superfluousValue (String.ofList (value.drop 1)))
    else .error (.unknownArgument ("--" ++ text))

/-- Whether an argument is an option rather than a value: a dash with something behind it. -/
def isOption (argument : String) : Bool :=
  match argument.toList with
  | '-' :: _ :: _ => true
  | _ => false

/-- Reads one argument that is not a value. -/
def readOption (o : Options) (argument : String) :
    Except UsageError (Options × Option ValuedOption) :=
  match argument.toList with
  | '-' :: '-' :: text => o.readLong (String.ofList text)
  | '-' :: c :: text => o.readShort (c :: text)
  | _ => .error (.unknownArgument argument)

/-- Reads the remaining arguments. `waiting` is the option whose value comes next, if any. -/
def readFrom (o : Options) : (waiting : Option ValuedOption) → List String →
    Except UsageError Options
  | none, [] => .ok o
  | some option, [] => .error (.missingValue option)
  | some option, argument :: rest => do
    if isOption argument then throw (.missingValue option)
    else
      let o ← o.give argument option
      o.readFrom none rest
  | none, argument :: rest => do
    let (o, waiting) ← o.readOption argument
    o.readFrom waiting rest

/-- Reads the arguments of a command line. -/
def read (arguments : List String) : Except UsageError Options :=
  unset.readFrom none arguments

/-- The settings that the options choose. -/
def settings (o : Options) : Settings :=
  ((Settings.default.setHistory (o.history.getD Settings.defaultHistory)).setStepLimit
    (o.stepLimit.getD Settings.defaultStepLimit)).setVerbosity o.verbosity

end Options

namespace CommandLine

/-- The first log line of a program. -/
def startLog (settings : Settings) : List Output :=
  settings.log .debug ("starting config=" ++ settings.describe)

/-- How a program ends after the reply to its only input. -/
def exitAfter : Ending → Exit
  | .answered => .success
  | .refused => .refused
  | .crashed => .crashed
  | .unsettled => .unsettled

/-- What the program writes if it is asked to evaluate one source. -/
def evaluateOnce (fuel : Nat) (settings : Settings) (source : String) : Transcript :=
  let reply := Reply.of source (Answer.result fuel settings source)
  ⟨reply.outputs, exitAfter reply.ending⟩

/-- What the program writes if the lines of an input make a session. -/
def interact (fuel : Nat) (settings : Settings) (input : String) : Transcript :=
  match Text.deliverAll (Text.inputLines input) with
  | (lines, false) => Session.run fuel settings lines
  | (lines, true) => Session.runInterrupted fuel settings lines

/-- What the program writes for some arguments and an input. -/
def run (fuel : Nat) (arguments : List String) (input : String) : Transcript :=
  match Options.read arguments with
  | .error e => ⟨[.errLine e.message], .usage⟩
  | .ok o =>
    let settings := o.settings
    let t := match o.source with
      | some source => evaluateOnce fuel settings source
      | none => interact fuel settings input
    ⟨startLog settings ++ t.outputs, t.exit⟩

end CommandLine

end WeakHead

import WeakHead.Diagnostic.Report
import WeakHead.Evaluation
import WeakHead.Settings

/-!
# Replies

A reply is what is written in answer to an input, in order, to the two output streams, and how it
ended. Log lines go to the error stream with the rest.
-/

namespace WeakHead

/-- A text for one of the output streams. -/
inductive Output where
  | out (text : String)
  | err (text : String)
deriving DecidableEq, Repr

namespace Output

/-- A line for the output stream. -/
def line (text : String) : Output :=
  out (text ++ "\n")

/-- A line for the error stream. -/
def errLine (text : String) : Output :=
  err (text ++ "\n")

/-- What goes to the output stream. -/
def outText : List Output → String
  | [] => ""
  | out text :: rest => text ++ outText rest
  | err _ :: rest => outText rest

/-- What goes to the error stream. -/
def errText : List Output → String
  | [] => ""
  | out _ :: rest => errText rest
  | err text :: rest => text ++ errText rest

/-- What goes to the output stream is written in order. -/
@[simp] theorem outText_append (a b : List Output) :
    outText (a ++ b) = outText a ++ outText b := by
  induction a with
  | nil => simp [outText]
  | cons o a ih => cases o <;> simp [outText, ih, String.append_assoc]

/-- What goes to the error stream is written in order. -/
@[simp] theorem errText_append (a b : List Output) :
    errText (a ++ b) = errText a ++ errText b := by
  induction a with
  | nil => simp [errText]
  | cons o a ih => cases o <;> simp [errText, ih, String.append_assoc]

end Output

/-- How the treatment of an input ended. -/
inductive Ending where
  /-- It was answered. -/
  | answered
  /-- Its syntax error was reported. -/
  | refused
  /-- It could not be carried through. -/
  | crashed
  /-- It has a reduction without a budget that was not watched to its end. -/
  | unsettled
deriving DecidableEq, Repr

/-- What is written in answer to an input. -/
structure Reply where
  outputs : List Output
  ending : Ending
deriving DecidableEq, Repr

namespace Reply

/-- The reply to an input about `source`: its answer, or the report of what is wrong with it. A
report on an empty source cannot be written. -/
def of (source : String) : Except Failure (List Output) → Reply
  | .ok outputs => ⟨outputs, .answered⟩
  | .error (.unreadable e) =>
    match e.report source with
    | .ok text => ⟨[.err text], .refused⟩
    | .error _ => ⟨[], .crashed⟩
  | .error (.broken _) => ⟨[], .crashed⟩
  | .error .unsettled => ⟨[], .unsettled⟩

end Reply

namespace Settings

/-- A log line of some level, if that level is logged. -/
def log (s : Settings) (level : LogLevel) (text : String) : List Output :=
  if level.rank ≤ s.logLevel.rank then
    [.errLine ((if level.tag.length < 5 then " " else "") ++ level.tag ++ " " ++ text)]
  else []

end Settings

end WeakHead

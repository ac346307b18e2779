import WeakHead.Term.Reader

/-!
# Diagnostics

A diagnostic is what a report says about a source: a message for the first line, and labels that
mark ranges of the source, each with a text of its own. Texts may hold painted parts.
-/

namespace WeakHead

/-- The colours of a report. -/
inductive Colour where
  /-- For the place of an error. -/
  | red
  /-- For the place that an error refers to. -/
  | yellow
  /-- For the frame around the source. -/
  | frame
  /-- For the parts of the source that no label marks. -/
  | plain
deriving DecidableEq, Repr

/-- The code of a colour on a terminal. -/
def Colour.code : Colour → String
  | red => "31"
  | yellow => "33"
  | frame => "38;5;246"
  | plain => "38;5;249"

/-- A text in a colour. -/
def Colour.paint (colour : Colour) (text : String) : String :=
  "\x1b[" ++ colour.code ++ "m" ++ text ++ "\x1b[0m"

/-- A half-open range of character positions. -/
structure Span where
  start : Nat
  stop : Nat
deriving DecidableEq, Repr, Inhabited

/-- A marked range of the source. -/
structure Label where
  span : Span
  colour : Colour
  text : String
deriving DecidableEq, Repr

/-- What a report says about a source. -/
structure Diagnostic where
  /-- The position that the report names. -/
  position : Nat
  message : String
  labels : List Label
deriving DecidableEq, Repr

namespace Diagnostic

/-- The name of the end of the source, which has no text of its own. -/
def endOfInput : String := "end of the input"

/-- The text of a token, or the name of the end of the source. -/
def tokenText (token : Option String) : String :=
  token.getD endOfInput

/-- The list of what was expected, each text once. What is expected is a hash set, and joining it as
it stands gives no fixed order; that the texts stand in the order of code points is a choice of this
program. -/
def expectedText (expected : List (Option String)) : String :=
  let texts := (expected.eraseDups.map tokenText).mergeSort (fun a b => decide (a ≤ b))
  let text := ", ".intercalate texts
  if text = "" then "something else" else text

/-- A token stands where it cannot. `rule` is the name of what was being read. -/
def unexpected (span : Span) (found : Option String) (expected : List (Option String))
    (rule : Option String) : Diagnostic :=
  let found := tokenText found
  let place := match rule with
    | some rule => " in " ++ rule
    | none => ""
  { position := span.start
    message := "Unexpected " ++ found ++ place ++ ", expected " ++ expectedText expected
    labels := [⟨span, .red, "Unexpected " ++ Colour.red.paint found⟩] }

/-- A delimiter was opened and not closed before `span`. -/
def unclosed (span opened : Span) (delimiter : String) (found : Option String) : Diagnostic :=
  let delimiter := Colour.yellow.paint delimiter
  { position := span.start
    message := "Unclosed delimiter " ++ delimiter
    labels :=
      [⟨opened, .yellow, "Opened here " ++ delimiter⟩,
       ⟨span, .red, "Must be closed before this " ++ Colour.red.paint (tokenText found)⟩] }

/-- An error with a message of its own. -/
def custom (span : Span) (message : String) : Diagnostic :=
  { position := span.start
    message
    labels := [⟨span, .red, Colour.red.paint message⟩] }

/-- The diagnostic of a syntax error. -/
def ofSyntaxError (e : SyntaxError) : Diagnostic :=
  unexpected ⟨e.start, e.stop⟩ (e.found.map Token.text) (e.expected.map (·.map Token.text))
    (e.rule.map Rule.text)

end Diagnostic

end WeakHead

import WeakHead.Diagnostic.Basic
import WeakHead.Diagnostic.SourceLine

/-!
# Reports

A report shows a diagnostic above the lines of the source that its labels mark. Each label has an
arm that hangs from the middle of its range; the arms of a line are written one after another, from
left to right, and an arm that is still to come passes as a vertical bar. Lines between marked lines
are left out, with one dotted margin for each gap.

Columns count characters. A tab fills its line up to the next multiple of four columns.
-/

namespace WeakHead

/-- A label on a line of the source, with the column from which its arm hangs. -/
structure LineLabel where
  column : Nat
  label : Label
deriving DecidableEq, Repr

/-- A line of the source with the labels that mark it. -/
structure MarkedLine where
  line : SourceLine
  /-- The labels by column, of those in one column the one that starts last first. -/
  labels : List LineLabel
deriving DecidableEq, Repr

namespace MarkedLine

/-- Whether an arm is drawn before another. -/
def drawnBefore (a b : LineLabel) : Bool :=
  a.column < b.column || (a.column == b.column && b.label.span.start ≤ a.label.span.start)

/-- A line with those of the labels that lie on it. -/
def mark (labels : List Label) (line : SourceLine) : MarkedLine :=
  let onLine := labels.filter fun l =>
    decide (line.offset ≤ l.span.start) && decide (l.span.stop ≤ line.offset + line.length)
  let placed := onLine.map fun l => ⟨(l.span.start + l.span.stop) / 2 - line.offset, l⟩
  ⟨line, placed.mergeSort drawnBefore⟩

/-- The shorter of two labels, of equal ones the first. -/
def shorter (a b : LineLabel) : LineLabel :=
  if b.label.span.stop - b.label.span.start < a.label.span.stop - a.label.span.start then b else a

/-- The colour of the shortest label that marks a column. -/
def cover (m : MarkedLine) (column : Nat) : Option Colour :=
  let position := m.line.offset + column
  let marking := m.labels.filter fun l =>
    decide (l.label.span.start ≤ position) && decide (position < l.label.span.stop)
  match marking with
  | [] => none
  | l :: rest => some (rest.foldl shorter l).label.colour

/-- The number of columns on the screen that a column takes. -/
def width (m : MarkedLine) (column : Nat) : Nat :=
  if m.line.text[column]? = some '\t' then (column / 4 + 1) * 4 - column else 1

/-- The text of the line, each character in the colour of its label. -/
def sourceText (m : MarkedLine) : String :=
  String.join (m.line.text.mapIdx fun column c =>
    let colour := (m.cover column).getD .plain
    let shown := if Text.isBlank c then ' ' else c
    String.join (List.replicate (m.width column) (colour.paint shown.toString)))

/-- The number of columns that the arms take. -/
def armLength (m : MarkedLine) : Nat :=
  m.labels.foldl (fun n l => max n (l.label.span.stop - m.line.offset)) 0 + 2

/-- The colour of the bar in a column where the arms from number `row` on are to come. -/
def bar (m : MarkedLine) (row column : Nat) : Option Colour :=
  ((m.labels.drop row).find? fun l => l.column == column).map fun l => l.label.colour

/-- One column of an arrow row: `head` and then `tail` as often as the column is wide. -/
def cell (m : MarkedLine) (column : Nat) (head tail : String) : String :=
  head ++ String.join (List.replicate (m.width column - 1) tail)

/-- The row under the line, or between two arms. Under the line the marked ranges are underlined. -/
def barRow (m : MarkedLine) (row : Nat) : String :=
  String.join ((List.range m.armLength).map fun column =>
    let under := if row = 0 then m.cover column else none
    match m.bar row column, under with
    | some colour, some _ => m.cell column (colour.paint "┬") (colour.paint "─")
    | some colour, none => m.cell column (colour.paint "│") (colour.paint " ")
    | none, some colour => m.cell column (colour.paint "─") (colour.paint "─")
    | none, none => m.cell column " " " ")

/-- The row with the arm of a label and its text. -/
def armRow (m : MarkedLine) (row : Nat) (arm : LineLabel) : String :=
  let colour := arm.label.colour
  String.join ((List.range m.armLength).map fun column =>
    if column = arm.column then m.cell column (colour.paint "╰") (colour.paint "─")
    else if arm.column < column then m.cell column (colour.paint "─") (colour.paint "─")
    else
      match m.bar row column with
      | some barColour => m.cell column (barColour.paint "│") (colour.paint " ")
      | none => m.cell column " " " ") ++
    " " ++ arm.label.text

end MarkedLine

namespace Diagnostic

/-- A row of `count` spaces. -/
def spaces (count : Nat) : String :=
  String.ofList (List.replicate count ' ')

/-- The margin of a row without a line number, where line numbers take `digits` columns. -/
def margin (digits : Nat) : String :=
  " " ++ Colour.frame.paint (spaces (digits + 1) ++ "·") ++ " "

/-- The margin of a line with its number, counted from one. -/
def numberedMargin (digits number : Nat) : String :=
  let text := toString number
  " " ++ Colour.frame.paint (spaces (digits - text.length) ++ text ++ " │") ++ " "

/-- A marked line: its number and text, then two rows for each of its labels. -/
def markedRows (digits number : Nat) (m : MarkedLine) : String :=
  let arms := m.labels.mapIdx fun row arm =>
    margin digits ++ m.barRow row ++ "\n" ++ margin digits ++ m.armRow row arm ++ "\n"
  numberedMargin digits number ++ m.sourceText ++ "\n" ++ String.join arms

/-- The rows of lines that are numbered from `number` on. A run of lines without labels gives one
empty margin; `skipped` tells that the line before was one of these. -/
def rows (labels : List Label) (digits : Nat) :
    (skipped : Bool) → (number : Nat) → List SourceLine → String
  | _, _, [] => ""
  | skipped, number, line :: rest =>
    let m := MarkedLine.mark labels line
    if m.labels.isEmpty then
      (if skipped then "" else margin digits ++ "\n") ++ rows labels digits true (number + 1) rest
    else markedRows digits number m ++ rows labels digits false (number + 1) rest

/-- Line and column of the position that a report names, counted from one. -/
def placeText (lines : List SourceLine) (position : Nat) : Except ReportFault String := do
  match ← lineAt lines position with
  | none => return "?:?"
  | some n =>
    let offset := (lines[n]?.map SourceLine.offset).getD 0
    return toString (n + 1) ++ ":" ++ toString (position - offset + 1)

/-- The report of a diagnostic on a source. -/
def report (d : Diagnostic) (source : String) : Except ReportFault String := do
  let lines := sourceLines source
  let place ← placeText lines d.position
  let first := (d.labels.map (·.span.start)).min?.getD 0
  let last := (d.labels.map (·.span.stop)).max?.getD 0
  let top := (← lineAt lines first).getD 0
  let bottom := ((← lineAt lines (max (last - 1) first)).map (· + 1)).getD lines.length
  let digits := (toString bottom).length
  let indent := spaces (digits + 2)
  return Colour.red.paint "Error:" ++ " " ++ d.message ++ "\n" ++
    indent ++ Colour.frame.paint "╭" ++ Colour.frame.paint "─" ++ Colour.frame.paint "[" ++
      "<unknown>:" ++ place ++ Colour.frame.paint "]" ++ "\n" ++
    indent ++ Colour.frame.paint "│" ++ "\n" ++
    rows d.labels digits false (top + 1) ((lines.take bottom).drop top) ++
    Colour.frame.paint (String.ofList (List.replicate (digits + 2) '─') ++ "╯") ++ "\n"

end Diagnostic

/-- The report of a syntax error on its source. -/
def SyntaxError.report (e : SyntaxError) (source : String) : Except ReportFault String :=
  (Diagnostic.ofSyntaxError e).report source

end WeakHead

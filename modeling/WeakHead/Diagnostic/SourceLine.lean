import WeakHead.Text.Lines

/-!
# Lines of a source

The lines of a source are known by the positions they take. A position is looked up among them; an
empty source has no lines and cannot answer.
-/

namespace WeakHead

/-- A line of a source. -/
structure SourceLine where
  /-- The position of the first character. -/
  offset : Nat
  /-- The number of characters, the line end counted whether it is there or not. -/
  length : Nat
  /-- The characters without the blanks at the end. -/
  text : List Char
deriving DecidableEq, Repr, Inhabited

/-- The lines with the given pieces, the first of which starts at `offset`. -/
def layLines (offset : Nat) : List (List Char) → List SourceLine
  | [] => []
  | piece :: rest =>
    let length := piece.length + 1
    ⟨offset, length, Text.trimRight piece⟩ :: layLines (offset + length) rest

/-- The lines of a source. -/
def sourceLines (source : String) : List SourceLine :=
  layLines 0 (Text.splitLines source.toList)

/-- The number of positions in the lines. -/
def extent : List SourceLine → Nat
  | [] => 0
  | line :: rest => line.length + extent rest

/-- The reason why a report cannot be written. -/
inductive ReportFault where
  /-- A line is needed for a position, and the source has no lines. -/
  | noLines
deriving DecidableEq, Repr

/-- The message for a report that cannot be written. -/
def ReportFault.message : ReportFault → String
  | noLines => "index out of bounds: the len is 0 but the index is 0"

/-- The number of the line that holds `position`, counted from zero: the last line that does not
start behind it. There is none for positions beyond the source. -/
def lineAt (lines : List SourceLine) (position : Nat) : Except ReportFault (Option Nat) :=
  if extent lines < position then .ok none
  else
    match (lines.takeWhile (fun line => decide (line.offset ≤ position))).length with
    | 0 => .error .noLines
    | n + 1 => .ok (some n)

end WeakHead

import WeakHead.Text.Blank

/-!
# Lines of a text

A line ends with a line feed. A line feed at the end of a text starts no further line, so an empty
text has no lines. In input a carriage return before a line feed belongs to the line end.
-/

namespace WeakHead.Text

/-- The pieces of a text between its line feeds, without an empty one after the last line feed. -/
def splitLines : List Char → List (List Char)
  | [] => []
  | c :: rest =>
    if c = '\n' then [] :: splitLines rest
    else
      match splitLines rest with
      | line :: lines => (c :: line) :: lines
      | [] => [[c]]

/-- The text with a line feed alone at the end of each line. -/
def unifyLineEnds : List Char → List Char
  | '\r' :: '\n' :: rest => '\n' :: unifyLineEnds rest
  | c :: rest => c :: unifyLineEnds rest
  | [] => []

/-- The lines of an input. -/
def inputLines (input : String) : List String :=
  (splitLines (unifyLineEnds input.toList)).map String.ofList

end WeakHead.Text

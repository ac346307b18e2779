import WeakHead.Text.Blank

/-!
# Minified text

`minify` drops every blank that is not needed to keep two words apart: a run of blanks survives as
one space exactly where it stands between two characters neither of which is a parenthesis. Two
bracketed forms that differ only in layout have the same minified text.
-/

namespace WeakHead.Text

/-- A parenthesis needs no blank on either side. -/
def isParen (c : Char) : Bool :=
  c == '(' || c == ')'

/-- Minifies the rest of a text. `before` is the last character written, if any; `gap` tells whether
blanks were passed over since. -/
def minifyAfter (before : Option Char) (gap : Bool) : List Char → List Char
  | [] => []
  | c :: rest =>
    if isBlank c then minifyAfter before true rest
    else
      let kept := c :: minifyAfter (some c) false rest
      match before with
      | some b => if gap && !isParen c && !isParen b then ' ' :: kept else kept
      | none => kept

/-- The text with its blanks reduced to the single spaces that separate words. -/
def minify (text : String) : String :=
  String.ofList (minifyAfter none false text.toList)

end WeakHead.Text

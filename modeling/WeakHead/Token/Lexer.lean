import WeakHead.Token

/-!
# Lexing piece by piece

The tokens of a text once more, put together from pieces that may fail: a symbol is tried before a
word, blanks are passed over on both sides of a token, tokens are read one after another until none
fits, and then the text must be at its end.
-/

namespace WeakHead

open Text (isBlank)

/-- Reads something from a text that starts at a position. Gives the position and the text behind
it. -/
abbrev Lexer (α : Type) := Nat → List Char → Option (α × Nat × List Char)

namespace Lexer

variable {α : Type}

/-- The character `c`, which stands for `token`. -/
def just (c : Char) (token : Token) : Lexer Token
  | pos, d :: rest => if d = c then some (token, pos + 1, rest) else none
  | _, [] => none

/-- One of the symbols. -/
def symbol : Lexer Token := fun pos cs =>
  (just '(' .openParen pos cs).or <| (just ')' .closeParen pos cs).or <| (just '.' .dot pos cs).or <|
    (just 'λ' .lambda pos cs).or <| just '\\' .lambda pos cs

/-- All characters up to the next delimiter, and at least one. -/
def word : Lexer Token := fun pos cs =>
  match cs.takeWhile fun c => !Token.endsWord c with
  | [] => none
  | c :: run => some (Token.ofWord (String.ofList (c :: run)), pos + (run.length + 1),
      cs.drop (run.length + 1))

/-- A symbol or a word. -/
def token : Lexer Token := fun pos cs =>
  (symbol pos cs).or (word pos cs)

/-- A token with the positions it was read from. -/
def spanned (token : Lexer Token) : Lexer Lexeme := fun pos cs =>
  (token pos cs).map fun (token, stop, rest) => (⟨token, pos, stop⟩, stop, rest)

/-- The position and the text behind the blanks at the front. -/
def skipBlanks (pos : Nat) (cs : List Char) : Nat × List Char :=
  (pos + (cs.takeWhile isBlank).length, cs.dropWhile isBlank)

/-- Something with blanks on both sides. -/
def padded (item : Lexer α) : Lexer α := fun pos cs =>
  let (pos, cs) := skipBlanks pos cs
  (item pos cs).map fun (a, pos, cs) => (a, skipBlanks pos cs)

/-- One item after another until one fails, at most `count` of them. -/
def repeated (item : Lexer α) : (count : Nat) → Nat → List Char → List α × Nat × List Char
  | 0, pos, cs => ([], pos, cs)
  | count + 1, pos, cs =>
    match item pos cs with
    | some (a, pos, cs) =>
      let (items, rest) := repeated item count pos cs
      (a :: items, rest)
    | none => ([], pos, cs)

/-- The lexemes of a whole source. A token takes up a character at least, so there are no more
tokens than characters. -/
def lex (source : String) : Option (List Lexeme) :=
  let (pos, cs) := skipBlanks 0 source.toList
  match repeated (padded (spanned token)) cs.length pos cs with
  | (ls, _, []) => some ls
  | _ => none

end Lexer

end WeakHead

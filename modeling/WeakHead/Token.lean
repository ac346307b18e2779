import WeakHead.Text.Blank

/-!
# Tokens of the term notation

A source is cut into tokens: the five one-character symbols `(`, `)`, `.`, `λ` and `\` stand for
themselves (the last two are the same token), and every longest run of other characters that are not
blank is a word. The words `let`, `in` and `=` are reserved; any other word is an identifier. Every
text has a token list, so `scan` never fails.

Positions count characters from the start of the source.
-/

namespace WeakHead

open Text (isBlank)

/-- A token of the term notation. -/
inductive Token where
  | openParen
  | closeParen
  | dot
  | lambda
  | letWord
  | inWord
  | equals
  | ident (name : String)
deriving DecidableEq, Repr

namespace Token

/-- The text that stands for a token in messages and token lists. -/
def text : Token → String
  | openParen => "("
  | closeParen => ")"
  | dot => "."
  | lambda => "λ"
  | letWord => "let"
  | inWord => "in"
  | equals => "="
  | ident name => name

/-- The token that a character is on its own, if it is one of the symbols. -/
def symbol? (c : Char) : Option Token :=
  if c = '(' then some openParen
  else if c = ')' then some closeParen
  else if c = '.' then some dot
  else if c = 'λ' ∨ c = '\\' then some lambda
  else none

/-- A delimiter ends the word before it: a blank or a symbol. -/
def endsWord (c : Char) : Bool :=
  isBlank c || (symbol? c).isSome

/-- The token of a whole word. -/
def ofWord (word : String) : Token :=
  if word = "let" then letWord
  else if word = "in" then inWord
  else if word = "=" then equals
  else ident word

end Token

/-- A token with the half-open range of character positions it was read from. -/
structure Lexeme where
  token : Token
  start : Nat
  stop : Nat
deriving DecidableEq, Repr

namespace Token

/-- The lexemes of the rest of a source that starts at position `pos`. -/
def scanFrom (pos : Nat) : List Char → List Lexeme
  | [] => []
  | c :: rest =>
    if isBlank c then scanFrom (pos + 1) rest
    else
      match symbol? c with
      | some token => ⟨token, pos, pos + 1⟩ :: scanFrom (pos + 1) rest
      | none =>
        let tail := rest.takeWhile (fun d => !endsWord d)
        let stop := pos + 1 + tail.length
        ⟨ofWord (String.ofList (c :: tail)), pos, stop⟩ ::
          scanFrom stop (rest.dropWhile (fun d => !endsWord d))
termination_by cs => cs.length
decreasing_by
  · simp
  · simp
  · exact Nat.lt_succ_of_le (List.dropWhile_suffix _).length_le

/-- The lexemes of a source, in order. -/
def scan (source : String) : List Lexeme :=
  scanFrom 0 source.toList

end Token

end WeakHead

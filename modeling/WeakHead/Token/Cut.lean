import WeakHead.Token

/-!
# Cuts of a text into tokens

Where the tokens of a text are, said without an algorithm: symbols stand for themselves, words are
runs of other characters between delimiters, blanks belong to nothing, and no character is left out.
-/

namespace WeakHead

open Text (isBlank)

/-- The characters that are tokens on their own. -/
def Token.symbols : List (Char × Token) :=
  [('(', .openParen), (')', .closeParen), ('.', .dot), ('λ', .lambda), ('\\', .lambda)]

namespace Lexeme

/-- The characters of a lexeme. -/
def chars (text : List Char) (l : Lexeme) : List Char :=
  (text.drop l.start).take (l.stop - l.start)

/-- The lexeme is one of the symbols, and one character long. -/
def IsSymbol (text : List Char) (l : Lexeme) : Prop :=
  ∃ c, text[l.start]? = some c ∧ (c, l.token) ∈ Token.symbols ∧ l.stop = l.start + 1

/-- The lexeme is a word: no delimiter is in it, it is the text of its token, and its token is
reserved exactly if the whole word is. -/
structure IsWord (text : List Char) (l : Lexeme) : Prop where
  inside : ∀ c ∈ l.chars text, isBlank c = false ∧ c ∉ ['(', ')', '.', 'λ', '\\']
  text_eq : l.token.text.toList = l.chars text
  let_iff : l.token = .letWord ↔ l.token.text = "let"
  in_iff : l.token = .inWord ↔ l.token.text = "in"
  equals_iff : l.token = .equals ↔ l.token.text = "="
  ident_iff : l.token = .ident l.token.text ↔ l.token.text ∉ ["let", "in", "="]

end Lexeme

namespace Token

/-- These are the lexemes of a text from position `pos` on. -/
structure Cuts (text : List Char) (pos : Nat) (ls : List Lexeme) : Prop where
  start_lt_stop : ∀ l ∈ ls, l.start < l.stop
  ordered : ls.Pairwise fun a b => a.stop ≤ b.start
  le_start : ∀ l ∈ ls, pos ≤ l.start
  stop_le : ∀ l ∈ ls, l.stop ≤ text.length
  /-- What is in no lexeme is blank. -/
  blank : ∀ i c, pos ≤ i → text[i]? = some c → (∀ l ∈ ls, ¬ (l.start ≤ i ∧ i < l.stop)) →
    isBlank c = true
  /-- Every symbol is a lexeme of its own. -/
  symbol : ∀ i c token, pos ≤ i → text[i]? = some c → (c, token) ∈ symbols →
    ⟨token, i, i + 1⟩ ∈ ls
  /-- Every other lexeme is a word. -/
  word : ∀ l ∈ ls, ¬ l.IsSymbol text → l.IsWord text
  /-- No word begins where another ends. -/
  apart : ∀ a ∈ ls, ∀ b ∈ ls, a.IsWord text → b.IsWord text → a.stop ≠ b.start

end Token

end WeakHead

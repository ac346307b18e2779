import WeakHead.Term.Reader

/-!
# Reading terms by descent

The notation once more, read the way its rules are written: a term is tried as a variable, as an
abstraction, as a `let` and as a group, in this order, and the first rule that fits counts. A rule
that does not fit gives back all lexemes. A group goes on with one term after another until none can
be read, gives back the lexemes of the term that failed, and then needs its closing parenthesis.

A descent looks again at lexemes that a rule has given back, so a source may be refused at several
places. The furthest of them counts, and at one place all that would have been admitted there. Where
something is read, the furthest refusal on the way is kept: what follows may be refused before it.
-/

namespace WeakHead

namespace Descent

/-- A place where a rule cannot go on. -/
structure Refusal where
  /-- The lexemes from the place on, none at the end of the source. -/
  rest : List Lexeme
  /-- The tokens that would have been admitted, in the order of their texts, identifiers left out;
  `none` stands for the end of the source. -/
  expected : List (Option Token)
  /-- The innermost rule that was being read. -/
  rule : Option Rule
deriving DecidableEq, Repr

/-- Something that has been read. -/
structure Reading (α : Type) where
  value : α
  /-- The lexemes behind it. -/
  rest : List Lexeme
  /-- The furthest place where another way to read it was refused. -/
  passed : Option Refusal
deriving DecidableEq, Repr

/-- The order in which expected tokens are listed, which they do not have of themselves: the end of
the source, and then by the texts. -/
def comesFirst : Option Token → Option Token → Bool
  | none, _ => true
  | some _, none => false
  | some token, some other => decide (token.text < other.text)

/-- Puts a token at its place among expected ones, unless it is there already. -/
def expect (token : Option Token) : List (Option Token) → List (Option Token)
  | [] => [token]
  | other :: others =>
    if token = other then other :: others
    else if comesFirst token other then token :: other :: others
    else other :: expect token others

namespace Refusal

/-- The furthest of two refusals. At one place both tell what would have been admitted, and the
later one tells the rule. -/
def furthest (later earlier : Refusal) : Refusal :=
  if later.rest.length < earlier.rest.length then later
  else if earlier.rest.length < later.rest.length then earlier
  else { later with expected := earlier.expected.foldr expect later.expected }

/-- The furthest of a refusal and one before it, if there was one. -/
def orEarlier (later : Refusal) : Option Refusal → Refusal
  | none => later
  | some earlier => later.furthest earlier

/-- A refusal inside a rule. One that belongs to an inner rule already stays with it. -/
def inside (rule : Option Rule) (r : Refusal) : Refusal :=
  { r with rule := r.rule.or rule }

/-- The error of a source of `length` characters that is refused there. -/
def error (length : Nat) (r : Refusal) : SyntaxError :=
  match r.rest with
  | [] => ⟨length, length + 1, none, r.expected, r.rule⟩
  | lexeme :: _ => ⟨lexeme.start, lexeme.stop, some lexeme.token, r.expected, r.rule⟩

end Refusal

/-- The furthest of two refusals, one before the other, as far as there were any. -/
def furthest? (earlier : Option Refusal) : Option Refusal → Option Refusal
  | none => earlier
  | some later => some (later.orEarlier earlier)

end Descent

/-- Reads something from the front of the lexemes, or is refused. -/
def Descent (α : Type) := List Lexeme → Except Descent.Refusal (Descent.Reading α)

namespace Descent

variable {α β : Type}

/-- Takes nothing. -/
protected def pure (value : α) : Descent α := fun ls =>
  .ok ⟨value, ls, none⟩

/-- Goes on behind what has been read. -/
def Reading.andThen (reading : Reading α) (second : α → Descent β) : Except Refusal (Reading β) :=
  match second reading.value reading.rest with
  | .error r => .error (r.orEarlier reading.passed)
  | .ok ⟨b, ls, later⟩ => .ok ⟨b, ls, furthest? reading.passed later⟩

/-- One after the other. -/
protected def bind (first : Descent α) (second : α → Descent β) : Descent β := fun ls =>
  match first ls with
  | .error r => .error r
  | .ok reading => reading.andThen second

instance : Monad Descent where
  pure := Descent.pure
  bind := Descent.bind

/-- The next token, if something can be taken from it. -/
def next (take : Token → Option α) (expected : List (Option Token)) : Descent α
  | [] => .error ⟨[], expected, none⟩
  | lexeme :: ls =>
    match take lexeme.token with
    | some a => .ok ⟨a, ls, none⟩
    | none => .error ⟨lexeme :: ls, expected, none⟩

/-- One token and no other. -/
def just (token : Token) : Descent Unit :=
  next (fun other => if other = token then some () else none) [some token]

/-- A name. -/
def name : Descent String :=
  next (fun | .ident name => some name | _ => none) []

/-- The end of the source. -/
def finish : Descent Unit
  | [] => .ok ⟨(), [], none⟩
  | ls => .error ⟨ls, [none], none⟩

/-- What is refused is refused inside the rule. -/
def labelled (rule : Rule) (item : Descent α) : Descent α := fun ls =>
  match item ls with
  | .error r => .error (r.inside rule)
  | .ok ⟨a, ls, passed⟩ => .ok ⟨a, ls, passed.map (Refusal.inside rule)⟩

/-- The first of some rules that fits, behind others that were refused. -/
def choice (earlier : Option Refusal) : List (Descent α) → Descent α
  | [], ls => .error (earlier.getD ⟨ls, [], none⟩)
  | rule :: rules, ls =>
    match rule ls with
    | .error r => choice (some (r.orEarlier earlier)) rules ls
    | .ok reading => .ok reading

/-- A name is a term. -/
def var : Descent Term :=
  labelled .var do
    let name ← name
    return .var name

/-- `λ ident . term` -/
def abs (term : Descent Term) : Descent Term :=
  labelled .abstraction do
    just .lambda
    let binder ← name
    just .dot
    let body ← term
    return .abs binder body

/-- `let ident = term in term` -/
def binding (term : Descent Term) : Descent Term :=
  labelled .binding do
    just .letWord
    let binder ← name
    just .equals
    let value ← term
    just .inWord
    let body ← term
    return .app (.abs binder body) value

/-- Goes on with a group after `fn`, by at most `count` terms, until a term is refused. -/
def arguments (term : Descent Term) :
    (count : Nat) → Term → Option Refusal → List Lexeme → Reading Term
  | 0, fn, passed, ls => ⟨fn, ls, passed⟩
  | count + 1, fn, passed, ls =>
    match term ls with
    | .error r => ⟨fn, ls, furthest? passed r⟩
    | .ok ⟨arg, ls, later⟩ => arguments term count (.app fn arg) (furthest? passed later) ls

/-- `)`, behind the terms of a group. -/
def close (t : Term) : Descent Term := do
  just .closeParen
  return t

/-- `term* )`, behind the first term of a group. A term takes up a lexeme at least, so there are no
more terms than lexemes. -/
def items (term : Descent Term) (fn : Term) : Descent Term := fun ls =>
  (arguments term (ls.length + 1) fn none ls).andThen close

/-- `( term term* )` -/
def group (term : Descent Term) : Descent Term :=
  labelled .application do
    just .openParen
    let fn ← term
    items term fn

/-- A term with at most `depth` terms inside one another. -/
def term : (depth : Nat) → Descent Term
  | 0 => choice none []
  | depth + 1 => labelled .term
    (choice none [var, abs (term depth), binding (term depth), group (term depth)])

/-- A term and nothing behind it. -/
def alone (depth : Nat) : Descent Term := do
  let t ← term depth
  finish
  return t

/-- Reads the lexemes of a source with `length` characters as one term. A term inside another starts
behind it, so there are no more terms inside one another than lexemes. -/
def whole (length : Nat) (ls : List Lexeme) : Except SyntaxError Term :=
  match alone (ls.length + 1) ls with
  | .error r => .error (r.error length)
  | .ok reading => .ok reading.value

/-- Reads a source as one term. -/
def parse (source : String) : Except SyntaxError Term :=
  whole source.length (Token.scan source)

end Descent

end WeakHead

import WeakHead.Term
import WeakHead.Token

/-!
# Reading terms

The notation is

    term := ident | λ ident . term | let ident = term in term | ( term term* )

A group associates to the left and a group of one term is that term; `let x = v in e` is `λx.e`
applied to `v`; the body of an abstraction or a `let` is one term.

One token is enough to choose a rule, so a term is read by a machine that sees each token once. Its
state says what may come next, and a stack of frames holds the terms that are not finished. The
first token that the state does not admit is the error; what the state does admit is the set of
tokens named as expected. The end of the source counts as a token behind the last character.
-/

namespace WeakHead

/-- A rule of the notation. An error names the one that was being read. -/
inductive Rule where
  | term
  | var
  | abstraction
  | binding
  | application
deriving DecidableEq, Repr

/-- The name of a rule in messages. -/
def Rule.text : Rule → String
  | term => "term"
  | var => "variable"
  | abstraction => "abstraction"
  | binding => "let"
  | application => "application"

/-- The first place where a source stops being the beginning of a term. -/
structure SyntaxError where
  /-- First position of the offending token; the number of characters for the end of the source. -/
  start : Nat
  /-- Position after the offending token. -/
  stop : Nat
  /-- The offending token, `none` for the end of the source. -/
  found : Option Token
  /-- The tokens that would have been admitted, in the order of their texts, identifiers left out;
  `none` stands for the end of the source. -/
  expected : List (Option Token)
  /-- The rule that was being read, if the term was not complete. -/
  rule : Option Rule
deriving DecidableEq, Repr

namespace Reader

/-- A term that waits for one of its parts. -/
inductive Frame where
  /-- The body of `λ binder .` is being read. -/
  | body (binder : String)
  /-- The value of `let binder =` is being read. -/
  | value (binder : String)
  /-- The part after `in` of `let binder = value in` is being read. -/
  | scope (binder : String) (value : Term)
  /-- The first term of a group is being read. -/
  | group
  /-- A later term of a group is being read; `fn` is the group so far. -/
  | argument (fn : Term)
deriving DecidableEq, Repr

/-- What may come next. -/
inductive State where
  /-- The start of a term. -/
  | start
  /-- The name after `λ`. -/
  | binder
  /-- The dot after `λ binder`. -/
  | dot (binder : String)
  /-- The name after `let`. -/
  | letBinder
  /-- The equals sign after `let binder`. -/
  | letEquals (binder : String)
  /-- The word `in` after `let binder = value`. -/
  | letIn (binder : String) (value : Term)
  /-- Another term of a group or its end; `fn` is the group so far. -/
  | rest (fn : Term)
  /-- The end of the source after a whole term. -/
  | complete (term : Term)
deriving DecidableEq, Repr

/-- The tokens other than identifiers that a state admits; `none` is the end of the source. -/
def State.expected : State → List (Option Token)
  | start => [some .openParen, some .letWord, some .lambda]
  | binder => []
  | dot _ => [some .dot]
  | letBinder => []
  | letEquals _ => [some .equals]
  | letIn _ _ => [some .inWord]
  | rest _ => [some .openParen, some .closeParen, some .letWord, some .lambda]
  | complete _ => [none]

/-- The rule to which a state belongs. -/
def State.rule : State → Option Rule
  | start => some .application
  | binder => some .abstraction
  | dot _ => some .abstraction
  | letBinder => some .binding
  | letEquals _ => some .binding
  | letIn _ _ => some .binding
  | rest _ => some .application
  | complete _ => none

/-- The error of a state that does not admit `found`, read from `start` to `stop`. -/
def State.refuse (s : State) (found : Option Token) (start stop : Nat) : SyntaxError :=
  { start, stop, found, expected := s.expected, rule := s.rule }

end Reader

/-- A reader in the middle of a source: its state and the unfinished terms, innermost first. -/
structure Reader where
  state : Reader.State
  frames : List Reader.Frame
deriving DecidableEq, Repr

namespace Reader

/-- A reader before the first token. -/
def initial : Reader :=
  ⟨.start, []⟩

/-- The reader after `term` has ended inside `frames`. Abstractions and `let` end with their last
part, so they are closed as well. -/
def resume (term : Term) : List Frame → Reader
  | [] => ⟨.complete term, []⟩
  | .body binder :: frames => resume (.abs binder term) frames
  | .value binder :: frames => ⟨.letIn binder term, frames⟩
  | .scope binder value :: frames => resume (.app (.abs binder term) value) frames
  | .group :: frames => ⟨.rest term, frames⟩
  | .argument fn :: frames => ⟨.rest (.app fn term), frames⟩

/-- The reader after the first token of a term inside `frames`, if a term can start with it. -/
def enter (frames : List Frame) : Token → Option Reader
  | .ident name => some (resume (.var name) frames)
  | .lambda => some ⟨.binder, frames⟩
  | .letWord => some ⟨.letBinder, frames⟩
  | .openParen => some ⟨.start, .group :: frames⟩
  | _ => none

/-- The reader after one more token, `none` if the state does not admit it. -/
def advance (r : Reader) (token : Token) : Option Reader :=
  match r.state with
  | .start => enter r.frames token
  | .binder =>
    match token with
    | .ident name => some ⟨.dot name, r.frames⟩
    | _ => none
  | .dot binder =>
    match token with
    | .dot => some ⟨.start, .body binder :: r.frames⟩
    | _ => none
  | .letBinder =>
    match token with
    | .ident name => some ⟨.letEquals name, r.frames⟩
    | _ => none
  | .letEquals binder =>
    match token with
    | .equals => some ⟨.start, .value binder :: r.frames⟩
    | _ => none
  | .letIn binder value =>
    match token with
    | .inWord => some ⟨.start, .scope binder value :: r.frames⟩
    | _ => none
  | .rest fn =>
    match token with
    | .closeParen => some (resume fn r.frames)
    | token => enter (.argument fn :: r.frames) token
  | .complete _ => none

/-- Reads the remaining lexemes of a source with `length` characters. -/
def run (length : Nat) : Reader → List Lexeme → Except SyntaxError Term
  | r, [] =>
    match r.state with
    | .complete term => .ok term
    | state => .error (state.refuse none length (length + 1))
  | r, lexeme :: rest =>
    match r.advance lexeme.token with
    | some next => run length next rest
    | none => .error (r.state.refuse (some lexeme.token) lexeme.start lexeme.stop)

end Reader

/-- Reads a source as one term. -/
def Term.parse (source : String) : Except SyntaxError Term :=
  Reader.initial.run source.length (Token.scan source)

end WeakHead

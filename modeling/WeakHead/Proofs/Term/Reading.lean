import WeakHead.Proofs.Token
import WeakHead.Term.Grammar

/-!
# What the reader accepts

`Grammar` shows that the reader goes through every token list that derives a term. Here is the other
direction: what a reader has gone through is known from its state and its frames (`Opens` and
`Reaches`), so when it has a whole term, the tokens derive that term.
-/

namespace WeakHead

namespace Reader

/-- The tokens lead from the start of a source into the frames, to the start of a term. -/
inductive Opens : List Token → List Frame → Prop where
  | nil : Opens [] []
  | body {ts frames binder} :
    Opens ts frames →
    Opens (ts ++ [.lambda, .ident binder, .dot]) (.body binder :: frames)
  | value {ts frames binder} :
    Opens ts frames →
    Opens (ts ++ [.letWord, .ident binder, .equals]) (.value binder :: frames)
  | scope {ts vs frames binder value} :
    Opens ts frames →
    Derives vs value →
    Opens (ts ++ .letWord :: .ident binder :: .equals :: (vs ++ [.inWord]))
      (.scope binder value :: frames)
  | group {ts frames} :
    Opens ts frames →
    Opens (ts ++ [.openParen]) (.group :: frames)
  | argument {ts us frames fn} :
    Opens ts frames →
    DerivesItems us fn →
    Opens (ts ++ .openParen :: us) (.argument fn :: frames)

/-- The tokens lead from the start of a source to the reader. -/
inductive Reaches : List Token → Reader → Prop where
  | start {ts frames} :
    Opens ts frames →
    Reaches ts ⟨.start, frames⟩
  | binder {ts frames} :
    Opens ts frames →
    Reaches (ts ++ [.lambda]) ⟨.binder, frames⟩
  | dot {ts frames binder} :
    Opens ts frames →
    Reaches (ts ++ [.lambda, .ident binder]) ⟨.dot binder, frames⟩
  | letBinder {ts frames} :
    Opens ts frames →
    Reaches (ts ++ [.letWord]) ⟨.letBinder, frames⟩
  | letEquals {ts frames binder} :
    Opens ts frames →
    Reaches (ts ++ [.letWord, .ident binder]) ⟨.letEquals binder, frames⟩
  | letIn {ts vs frames binder value} :
    Opens ts frames →
    Derives vs value →
    Reaches (ts ++ .letWord :: .ident binder :: .equals :: vs) ⟨.letIn binder value, frames⟩
  | rest {ts us frames fn} :
    Opens ts frames →
    DerivesItems us fn →
    Reaches (ts ++ .openParen :: us) ⟨.rest fn, frames⟩
  | complete {ts t} :
    Derives ts t →
    Reaches ts ⟨.complete t, []⟩

/-- Where a term ends, all abstractions and `let` that end with it are derived too. -/
lemma Opens.resume {ts us frames t} (op : Opens ts frames) (de : Derives us t) :
    Reaches (ts ++ us) (resume t frames) := by
  induction op generalizing us t with
  | nil => exact .complete de
  | body _ ih =>
    rw [List.append_assoc]
    exact ih (.abs de)
  | value op _ =>
    rw [List.append_assoc]
    exact .letIn op de
  | @scope _ _ frames binder value _ dev ih =>
    have re := ih (@Derives.binding binder _ _ _ _ dev de)
    show Reaches _ (Reader.resume (.app (.abs binder t) value) frames)
    simpa only [List.append_assoc, List.cons_append, List.nil_append] using re
  | group op _ =>
    rw [List.append_assoc]
    exact .rest op (.first de)
  | argument op dei _ =>
    rw [List.append_assoc]
    exact .rest op (.more dei de)

/-- The first token of a term leads on. -/
lemma Opens.enter {ts frames token r} (op : Opens ts frames) (e : enter frames token = some r) :
    Reaches (ts ++ [token]) r := by
  cases token with
  | ident name =>
    cases e
    exact op.resume (.var name)
  | lambda =>
    cases e
    exact .binder op
  | letWord =>
    cases e
    exact .letBinder op
  | openParen =>
    cases e
    exact .start (.group op)
  | _ => cases e

/-- Every token that is admitted leads on. -/
lemma Reaches.advance {ts r token r'} (re : Reaches ts r) (e : r.advance token = some r') :
    Reaches (ts ++ [token]) r' := by
  cases re with
  | start op => exact op.enter e
  | binder op =>
    cases token with
    | ident name =>
      cases e
      rw [List.append_assoc]
      exact .dot op
    | _ => cases e
  | dot op =>
    cases token with
    | dot =>
      cases e
      rw [List.append_assoc]
      exact .start (.body op)
    | _ => cases e
  | letBinder op =>
    cases token with
    | ident name =>
      cases e
      rw [List.append_assoc]
      exact .letEquals op
    | _ => cases e
  | letEquals op =>
    cases token with
    | equals =>
      cases e
      rw [List.append_assoc]
      exact .start (.value op)
    | _ => cases e
  | letIn op de =>
    cases token with
    | inWord =>
      cases e
      rw [List.append_assoc]
      exact .start (.scope op de)
    | _ => cases e
  | @rest ts us frames fn op dei =>
    -- A closing parenthesis ends the group; any other token begins its next member.
    by_cases hc : token = .closeParen
    · subst hc
      cases e
      have rs := op.resume (.group dei)
      simpa only [List.append_assoc, List.cons_append, List.nil_append] using rs
    · rw [advance_rest hc] at e
      exact (Opens.argument op dei).enter e
  | complete _ => cases e

/-- Tokens that are admitted one after another lead on. -/
lemma Reaches.advanceAll {ts r us r'} (re : Reaches ts r) (e : r.advanceAll us = some r') :
    Reaches (ts ++ us) r' := by
  induction us generalizing ts r with
  | nil =>
    cases e
    rwa [List.append_nil]
  | cons token us ih =>
    obtain ⟨r₁, ea, e⟩ := Option.bind_eq_some_iff.1 e
    have re' := ih (re.advance ea) e
    rwa [List.append_assoc] at re'

/-- A reader goes through exactly the token lists that derive a term, and has then read that
term. -/
lemma advanceAll_initial_iff {ts t} :
    (∃ frames, initial.advanceAll ts = some ⟨.complete t, frames⟩) ↔ Derives ts t := by
  constructor
  · rintro ⟨frames, e⟩
    have re := (Reaches.start .nil).advanceAll e
    cases re with
    | complete de => exact de
  · exact fun de => ⟨[], advanceAll_of_derives de []⟩

/-- Reading ends with a term exactly if the reader admits all tokens and has then read that term. -/
lemma run_eq_ok_iff {length r lexemes t} :
    run length r lexemes = .ok t ↔
      ∃ frames, r.advanceAll (lexemes.map Lexeme.token) = some ⟨.complete t, frames⟩ := by
  induction lexemes generalizing r with
  | nil =>
    obtain ⟨state, frames⟩ := r
    rw [run, List.map_nil, advanceAll]
    cases state with
    | complete u => simp
    | _ => simp
  | cons lexeme lexemes ih =>
    rw [run, List.map_cons, advanceAll]
    cases r.advance lexeme.token with
    | none => simp
    | some next => exact ih

end Reader

/-- A source is read as a term exactly if its tokens derive the term. -/
lemma Term.parse_eq_ok_iff {source t} :
    Term.parse source = .ok t ↔ Derives (Token.ofSource source) t := by
  rw [parse, Reader.run_eq_ok_iff]
  exact Reader.advanceAll_initial_iff

end WeakHead

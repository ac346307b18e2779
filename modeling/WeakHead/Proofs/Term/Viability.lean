import WeakHead.Proofs.Term.Descent

/-!
# Where a source stops being the beginning of a term

A token list is viable if it can be continued to a term. The reader goes through exactly the viable
token lists: whatever it has read can be brought to an end, so it never goes on where no term is
left to be found. What its state admits is what keeps the tokens viable. So its error tells where
the tokens stop being viable, and so does that of a descent, which is the same.

Main statement: `parse_error_at_first_offence`.
-/

namespace WeakHead

/-- The tokens are a whole term. -/
def Sentence (ts : List Token) : Prop :=
  ∃ t, Derives ts t

/-- The tokens can be continued to a whole term. -/
def Viable (ts : List Token) : Prop :=
  ∃ us, Sentence (ts ++ us)

/-- The error stands where a source of `length` characters stops being the beginning of a term,
which is behind the lexemes `before` and at the first of `rest`. -/
structure SyntaxError.IsFirstOffence (e : SyntaxError) (length : Nat) (before rest : List Lexeme) :
    Prop where
  /-- What stands before the error can be continued to a term. -/
  viable : Viable (before.map Lexeme.token)
  /-- With the next token it cannot, and the error is at this token. -/
  at_token : ∀ lexeme ∈ rest.head?, ¬ Viable (before.map Lexeme.token ++ [lexeme.token]) ∧
    e.start = lexeme.start ∧ e.stop = lexeme.stop ∧ e.found = some lexeme.token
  /-- If there is no next token it is no term yet, and the error is at the end. -/
  at_end : rest = [] → ¬ Sentence (before.map Lexeme.token) ∧
    e.start = length ∧ e.stop = length + 1 ∧ e.found = none
  /-- The texts named as expected are those of the tokens that could stand there instead. -/
  text_mem_expected_iff : ∀ token : Token, (∀ name, token ≠ .ident name) →
    (some token.text ∈ e.expected.map (Option.map Token.text) ↔
      Viable (before.map Lexeme.token ++ [token]))
  /-- Identifiers are left out. -/
  ident_not_mem_expected : ∀ name, some (Token.ident name) ∉ e.expected
  /-- The end is named as expected if the source could end there. -/
  none_mem_expected_iff : none ∈ e.expected ↔ Sentence (before.map Lexeme.token)

namespace Reader

/-! ### What has been read can be brought to an end -/

/-- Behind a term all frames can be closed: the shortest terms are put in where one is missing. -/
lemma exists_advanceAll_resume (t : Term) (frames : List Frame) :
    ∃ us u, advanceAll (resume t frames) us = some ⟨.complete u, []⟩ := by
  induction frames generalizing t with
  | nil => exact ⟨[], t, rfl⟩
  | cons frame frames ih =>
    cases frame with
    | body binder => exact ih (.abs binder t)
    | value binder =>
      obtain ⟨us, u, e⟩ := ih (.app (.abs binder (.var "x")) t)
      exact ⟨.inWord :: .ident "x" :: us, u, e⟩
    | scope binder value => exact ih (.app (.abs binder t) value)
    | group =>
      obtain ⟨us, u, e⟩ := ih t
      exact ⟨.closeParen :: us, u, e⟩
    | argument fn =>
      obtain ⟨us, u, e⟩ := ih (.app fn t)
      exact ⟨.closeParen :: us, u, e⟩

lemma exists_advanceAll_start (frames : List Frame) :
    ∃ us u, advanceAll ⟨.start, frames⟩ us = some ⟨.complete u, []⟩ := by
  obtain ⟨us, u, e⟩ := exists_advanceAll_resume (.var "x") frames
  exact ⟨.ident "x" :: us, u, e⟩

/-- Every reader can be led to the end of the source. -/
lemma exists_advanceAll (r : Reader) :
    ∃ us u frames, r.advanceAll us = some ⟨.complete u, frames⟩ := by
  obtain ⟨state, frames⟩ := r
  cases state with
  | start =>
    obtain ⟨us, u, e⟩ := exists_advanceAll_start frames
    exact ⟨us, u, [], e⟩
  | binder =>
    obtain ⟨us, u, e⟩ := exists_advanceAll_start (.body "x" :: frames)
    exact ⟨.ident "x" :: .dot :: us, u, [], e⟩
  | dot binder =>
    obtain ⟨us, u, e⟩ := exists_advanceAll_start (.body binder :: frames)
    exact ⟨.dot :: us, u, [], e⟩
  | letBinder =>
    obtain ⟨us, u, e⟩ := exists_advanceAll_start (.value "x" :: frames)
    exact ⟨.ident "x" :: .equals :: us, u, [], e⟩
  | letEquals binder =>
    obtain ⟨us, u, e⟩ := exists_advanceAll_start (.value binder :: frames)
    exact ⟨.equals :: us, u, [], e⟩
  | letIn binder value =>
    obtain ⟨us, u, e⟩ := exists_advanceAll_start (.scope binder value :: frames)
    exact ⟨.inWord :: us, u, [], e⟩
  | rest fn =>
    obtain ⟨us, u, e⟩ := exists_advanceAll_resume fn frames
    exact ⟨.closeParen :: us, u, [], e⟩
  | complete t => exact ⟨[], t, frames, rfl⟩

/-- A reader goes through exactly the viable token lists. -/
lemma exists_advanceAll_initial_iff {ts} : (∃ r, initial.advanceAll ts = some r) ↔ Viable ts := by
  constructor
  · -- What leads the reader to the end continues the tokens to a term.
    rintro ⟨r, e⟩
    obtain ⟨us, t, frames, eu⟩ := exists_advanceAll r
    refine ⟨us, t, advanceAll_initial_iff.1 ⟨frames, ?_⟩⟩
    rw [advanceAll_append, e, Option.bind_some, eu]
  · rintro ⟨us, t, de⟩
    obtain ⟨frames, e⟩ := advanceAll_initial_iff.2 de
    rw [advanceAll_append] at e
    obtain ⟨r, er, -⟩ := Option.bind_eq_some_iff.1 e
    exact ⟨r, er⟩

variable {ts : List Token} {r : Reader}

lemma exists_advance_iff (e : initial.advanceAll ts = some r) {token} :
    (∃ r', r.advance token = some r') ↔ Viable (ts ++ [token]) := by
  rw [← exists_advanceAll_initial_iff, advanceAll_append, e, Option.bind_some, advanceAll]
  cases r.advance token <;> simp [advanceAll]

lemma exists_complete_iff (e : initial.advanceAll ts = some r) :
    (∃ t, r.state = .complete t) ↔ Sentence ts := by
  constructor
  · rintro ⟨t, es⟩
    refine ⟨t, advanceAll_initial_iff.1 ⟨r.frames, ?_⟩⟩
    rw [e, ← es]
  · rintro ⟨t, de⟩
    obtain ⟨frames, e'⟩ := advanceAll_initial_iff.2 de
    rw [e] at e'
    cases e'
    exact ⟨t, rfl⟩

/-! ### What a state names as expected -/

/-- The texts that a state names are those of the tokens that it admits, identifiers left out. -/
lemma text_mem_expected_iff {token : Token} (hn : ∀ name, token ≠ .ident name) :
    some token.text ∈ r.state.expected.map (Option.map Token.text) ↔
      ∃ r', r.advance token = some r' := by
  obtain ⟨state, frames⟩ := r
  cases token with
  | ident name => exact absurd rfl (hn name)
  | _ => cases state <;> simp [State.expected, Token.text, advance, enter]

lemma ident_not_mem_expected (name) : some (Token.ident name) ∉ r.state.expected := by
  cases r.state <;> simp [State.expected]

lemma none_mem_expected_iff : none ∈ r.state.expected ↔ ∃ t, r.state = .complete t := by
  cases r.state <;> simp [State.expected]

/-! ### Where reading stops -/

/-- The reader refuses what is next: a token, or the end of a source with `length` characters. -/
inductive Stops (length : Nat) (r : Reader) : List Lexeme → SyntaxError → Prop where
  | token {lexeme after} :
    r.advance lexeme.token = none →
    Stops length r (lexeme :: after)
      (r.state.refuse (some lexeme.token) lexeme.start lexeme.stop)
  | finish :
    (¬ ∃ t, r.state = .complete t) →
    Stops length r [] (r.state.refuse none length (length + 1))

variable {length : Nat} {lexemes rest : List Lexeme} {error : SyntaxError}

lemma Stops.run (st : Stops length r rest error) : run length r rest = .error error := by
  cases st with
  | token ea => rw [Reader.run, ea]
  | finish hn =>
    obtain ⟨state, frames⟩ := r
    cases state with
    | complete t => exact absurd ⟨t, rfl⟩ hn
    | _ => rfl

lemma Stops.expected_eq (st : Stops length r rest error) : error.expected = r.state.expected := by
  cases st <;> rfl

/-- Only the next lexeme counts for the error, or the length of the source if there is none. -/
lemma Stops.congr {length' rest'} (st : Stops length r rest error) (er : rest'.head? = rest.head?)
    (el : rest = [] → length' = length) : Stops length' r rest' error := by
  cases st with
  | token ea =>
    obtain ⟨after, rfl⟩ := List.head?_eq_some_iff.1 er
    exact .token ea
  | finish hn =>
    cases List.head?_eq_none_iff.1 er
    cases el rfl
    exact .finish hn

/-- Where the reader stops behind what it has read, the source offends first. -/
lemma Stops.isFirstOffence {before} (ea : initial.advanceAll (before.map Lexeme.token) = some r)
    (st : Stops length r rest error) : error.IsFirstOffence length before rest where
  viable := exists_advanceAll_initial_iff.1 ⟨r, ea⟩
  at_token := by
    rintro lexeme hm
    cases st with
    | token hn =>
      cases hm
      refine ⟨?_, rfl, rfl, rfl⟩
      rw [← exists_advance_iff ea, hn]
      rintro ⟨r', ⟨⟩⟩
    | finish _ => cases hm
  at_end := by
    rintro rfl
    cases st with
    | finish hn => exact ⟨mt (exists_complete_iff ea).2 hn, rfl, rfl, rfl⟩
  text_mem_expected_iff token hn := by
    rw [st.expected_eq, text_mem_expected_iff hn, exists_advance_iff ea]
  ident_not_mem_expected name := by
    rw [st.expected_eq]
    exact ident_not_mem_expected name
  none_mem_expected_iff := by
    rw [st.expected_eq, none_mem_expected_iff, exists_complete_iff ea]

/-- Only the tokens of what was read count for the rest of the reading. -/
lemma run_append {before r'} (e : r.advanceAll (before.map Lexeme.token) = some r') :
    run length r (before ++ rest) = run length r' rest := by
  induction before generalizing r with
  | nil =>
    cases e
    rfl
  | cons lexeme before ih =>
    obtain ⟨next, ea, e⟩ := Option.bind_eq_some_iff.1 e
    rw [List.cons_append, run, ea]
    exact ih e

/-- Reading that fails has stopped somewhere. -/
lemma exists_stops (e : run length r lexemes = .error error) :
    ∃ before rest r', lexemes = before ++ rest ∧
      r.advanceAll (before.map Lexeme.token) = some r' ∧ Stops length r' rest error := by
  induction lexemes generalizing r with
  | nil =>
    refine ⟨[], [], r, rfl, rfl, ?_⟩
    obtain ⟨state, frames⟩ := r
    cases state with
    | complete t => cases e
    | _ =>
      cases e
      exact .finish nofun
  | cons lexeme lexemes ih =>
    rw [run] at e
    cases ea : r.advance lexeme.token with
    | none =>
      rw [ea] at e
      cases e
      exact ⟨[], _, r, rfl, rfl, .token ea⟩
    | some next =>
      rw [ea] at e
      obtain ⟨before, rest, r', rfl, er, st⟩ := ih e
      refine ⟨lexeme :: before, rest, r', rfl, ?_, st⟩
      rw [List.map_cons, advanceAll, ea, Option.bind_some, er]

end Reader

/-- A source that is no term has one error. It stands at the first token with which the source stops
being the beginning of a term, or at the end if the source breaks off, and names what could stand
there instead. It is also the furthest refusal of the rules that are tried one after another. A
source with the same tokens up to there, this one at the same place, has the same error. -/
theorem Term.parse_error_at_first_offence {source} (h : ∀ t, Term.parse source ≠ .ok t) :
    ∃! e, Term.parse source = .error e ∧ Descent.parse source = .error e ∧
      ∃ before rest, Token.scan source = before ++ rest ∧
        e.IsFirstOffence source.length before rest ∧
        ∀ source' before' rest', Token.scan source' = before' ++ rest' →
          before'.map Lexeme.token = before.map Lexeme.token → rest'.head? = rest.head? →
          (rest = [] → source'.length = source.length) → Term.parse source' = .error e := by
  cases ep : Term.parse source with
  | ok t => exact absurd ep (h t)
  | error e =>
    obtain ⟨before, rest, r, es, ea, st⟩ := Reader.exists_stops ep
    refine ⟨e, ⟨rfl, Descent.parse_eq source ▸ ep, before, rest, es, st.isFirstOffence ea, ?_⟩,
      fun e' h' => (Except.error.inj h'.1).symm⟩
    intro source' before' rest' es' eb er el
    rw [Term.parse, es', Reader.run_append (eb ▸ ea)]
    exact (st.congr er el).run

/-- In `(f (λx y))` the dot is missing: the error is at `y`, and `.` is expected. -/
theorem Term.parse_error_at_first_offence_dot :
    (∀ t, Term.parse "(f (λx y))" ≠ .ok t) ∧
      ∃ before rest, Token.scan "(f (λx y))" = before ++ rest ∧
        SyntaxError.IsFirstOffence ⟨7, 8, some (.ident "y"), [some .dot], some .abstraction⟩ 10
          before rest := by
  have ep : Term.parse "(f (λx y))" =
      .error ⟨7, 8, some (.ident "y"), [some .dot], some .abstraction⟩ := by decide +kernel
  have h : ∀ t, Term.parse "(f (λx y))" ≠ .ok t := by
    rw [ep]
    nofun
  obtain ⟨e, ⟨ee, -, before, rest, es, fo, -⟩, -⟩ := Term.parse_error_at_first_offence h
  cases ep.symm.trans ee
  exact ⟨h, before, rest, es, fo⟩

end WeakHead

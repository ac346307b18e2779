import WeakHead.Proofs.Text.Minified
import WeakHead.Proofs.Token
import WeakHead.Session.Answer

/-!
# Blanks between tokens

A text can be cut wherever a delimiter is on either side, and has the tokens of both pieces
(`ofChars_append_of_stops`, `ofChars_append_of_ends`). So one blank is as good as many between two
tokens, and none is needed next to a symbol. Minifying a text and writing its tokens one after
another do not change what is read; only the places that errors name are others.

Main statement: `minify_and_spaced_read_alike`.
-/

namespace WeakHead

open Text (isBlank isParen minify minifyAfter)

namespace Token

variable {before rest cs : List Char} {c : Char}

/-! ### Cutting a text in two -/

/-- The text is empty or ends with a character that ends the word before it. -/
def EndsWord (cs : List Char) : Prop :=
  ∀ c ∈ cs.getLast?, endsWord c

lemma ofChars_append_of_stops (hr : StopsWord rest) :
    ofChars (before ++ rest) = ofChars before ++ ofChars rest := by
  -- The cases are those of the scan. Where it is does not count for the tokens.
  induction (0 : Nat), before using scanFrom.induct with
  | case1 pos =>
    rw [ofChars_nil]
    rfl
  | case2 pos c cs hb ih => rw [List.cons_append, ofChars_blank hb, ofChars_blank hb, ih]
  | case3 pos c cs hb token hs ih =>
    rw [Bool.not_eq_true] at hb
    rw [List.cons_append, ofChars_symbol hb hs, ofChars_symbol hb hs, ih, List.cons_append]
  | case4 pos c cs hb hs tail stop ih =>
    have hc : endsWord c = false := by simp [endsWord, hb, hs]
    have hw : ∀ d ∈ c :: tail, endsWord d = false :=
      List.forall_mem_cons.2 ⟨hc, fun d hd => by simpa using List.mem_takeWhile_imp hd⟩
    have ends : ∀ d ∈ (cs.dropWhile fun d => !endsWord d).head?, endsWord d := fun d hd => by
      have hn := List.head?_dropWhile_not (fun d => !endsWord d) cs
      rw [hd] at hn
      simpa using hn
    have stops : StopsWord ((cs.dropWhile fun d => !endsWord d) ++ rest) := by
      cases e : cs.dropWhile fun d => !endsWord d with
      | nil => exact hr
      | cons d more => exact fun x hx => ends x (e ▸ hx)
    have e : c :: cs = (c :: tail) ++ cs.dropWhile fun d => !endsWord d := by
      rw [List.cons_append, List.takeWhile_append_dropWhile]
    rw [e, List.append_assoc, ofChars_word (List.cons_ne_nil c tail) hw stops,
      ofChars_word (List.cons_ne_nil c tail) hw ends, ih, List.cons_append]

lemma ofChars_delimiter (hc : endsWord c) (rest) :
    ofChars (c :: rest) = ofChars [c] ++ ofChars rest := by
  cases hb : isBlank c with
  | true => rw [ofChars_blank hb, ofChars_blank hb, ofChars_nil, List.nil_append]
  | false =>
    obtain ⟨token, hs⟩ := Option.isSome_iff_exists.1 (by simpa [endsWord, hb] using hc)
    rw [ofChars_symbol hb hs, ofChars_symbol hb hs, ofChars_nil, List.singleton_append]

lemma ofChars_append_of_ends (he : EndsWord before) :
    ofChars (before ++ rest) = ofChars before ++ ofChars rest := by
  rcases List.eq_nil_or_concat before with rfl | ⟨before, c, rfl⟩
  · rw [ofChars_nil]
    rfl
  · have hc : endsWord c := he c (by simp)
    rw [List.concat_eq_append, List.append_assoc, List.singleton_append,
      ofChars_append_of_stops (stopsWord_cons hc), ofChars_append_of_stops (stopsWord_cons hc),
      ofChars_delimiter hc, List.append_assoc]

/-- A blank belongs to no token, and separates those before it from those behind it. -/
lemma ofChars_append_blank (hb : isBlank c) : ofChars (before ++ c :: rest) =
    ofChars before ++ ofChars rest := by
  have hc : endsWord c := by simp [endsWord, hb]
  rw [ofChars_append_of_stops (stopsWord_cons hc), ofChars_blank hb]

lemma endsWord_of_isParen (hp : isParen c = true) : endsWord c = true := by
  rw [endsWord_iff]
  simp only [isParen, Bool.or_eq_true, beq_iff_eq] at hp
  obtain rfl | rfl := hp <;> simp

/-! ### Minified texts -/

/-- What minifying writes behind a text has the tokens that the rest would have there, with a blank
before it if blanks were passed over. -/
lemma ofChars_minifyAfter (before gap cs) :
    ofChars (before ++ minifyAfter before.getLast? gap cs) =
      ofChars (before ++ if gap = true then ' ' :: cs else cs) := by
  have space : ∀ before cs, ofChars (before ++ ' ' :: cs) = ofChars before ++ ofChars cs :=
    fun before cs => ofChars_append_blank (by decide)
  induction cs generalizing before gap with
  | nil =>
    cases gap with
    | false => rfl
    | true =>
      rw [if_pos rfl, space, ofChars_nil, List.append_nil, minifyAfter, List.append_nil]
  | cons c rest ih =>
    cases hc : isBlank c with
    | true =>
      rw [Text.minifyAfter_blank hc, ih, if_pos rfl, space]
      cases gap with
      | false => exact (ofChars_append_blank hc).symm
      | true => rw [if_pos rfl, space, ofChars_blank hc]
    | false =>
      rcases Text.minifyAfter_cases hc before.getLast? gap rest with
        ⟨e, joins⟩ | ⟨rfl, -, -, e⟩
      · have ih := ih (before ++ [c]) false
        rw [List.getLast?_concat, List.append_assoc, List.append_assoc] at ih
        rw [e]
        refine ih.trans ?_
        cases gap with
        | false => rfl
        | true =>
          -- A blank is left out only where a parenthesis or the start of the text is.
          rw [if_pos rfl, space]
          cases joins rfl with
          | inl hp => exact ofChars_append_of_stops (stopsWord_cons (endsWord_of_isParen hp))
          | inr hp => exact ofChars_append_of_ends fun b hb => endsWord_of_isParen (hp b hb)
      · have ih := ih (before ++ [' ', c]) false
        have last : (before ++ [' ', c]).getLast? = some c := by simp
        rw [last, List.append_assoc, List.append_assoc] at ih
        rw [e]
        exact ih

lemma ofSource_minify (source : String) : ofSource (minify source) = ofSource source := by
  rw [ofSource, minify, String.toList_ofList]
  exact ofChars_minifyAfter [] false source.toList

/-! ### Tokens with spaces between them -/

/-- The texts of the tokens of a source, with one space between each and the next. -/
def spaced (source : String) : String :=
  " ".intercalate ((scan source).map fun l => l.token.text)

/-- Symbols and reserved words are read from their own texts, and identifiers if they can be read
at all. -/
lemma ofChars_text {token} (lx : ∀ name, token = ident name → Lexable name) :
    ofChars token.text.toList = [token] := by
  have symbol : ∀ c token, isBlank c = false → symbol? c = some token → ofChars [c] = [token] :=
    fun c token hb hs => by rw [ofChars_symbol hb hs, ofChars_nil]
  have word : ∀ word, word ≠ "" → word.toList.all (fun c => !endsWord c) = true →
      ofChars word.toList = [ofWord word] := fun word ne hw => by
    have inside : ∀ c ∈ word.toList, endsWord c = false := by simpa using hw
    have e := @ofChars_word word.toList [] (mt String.toList_eq_nil_iff.1 ne) inside nofun
    rwa [List.append_nil, String.ofList_toList, ofChars_nil] at e
  cases token with
  | openParen => exact symbol '(' openParen (by decide) (by decide)
  | closeParen => exact symbol ')' closeParen (by decide) (by decide)
  | dot => exact symbol '.' dot (by decide) (by decide)
  | lambda => exact symbol 'λ' lambda (by decide) (by decide)
  | letWord => exact word "let" (by decide) (by decide)
  | inWord => exact word "in" (by decide) (by decide)
  | equals => exact word "=" (by decide) (by decide)
  | ident name => exact (lx name rfl).ofChars_alone

lemma ofChars_intercalate {tokens : List Token}
    (alone : ∀ token ∈ tokens, ofChars token.text.toList = [token]) :
    ofChars (" ".intercalate (tokens.map text)).toList = tokens := by
  induction tokens with
  | nil => rw [List.map_nil, String.intercalate_nil, String.toList_empty, ofChars_nil]
  | cons token tokens ih =>
    obtain ⟨ht, alone⟩ := List.forall_mem_cons.1 alone
    cases tokens with
    | nil => rw [List.map_singleton, String.intercalate_singleton, ht]
    | cons next tokens =>
      have e : (" ".intercalate ((token :: next :: tokens).map text)).toList =
          token.text.toList ++ ' ' :: (" ".intercalate ((next :: tokens).map text)).toList := by
        simp
      rw [e, ofChars_append_blank (by decide), ht, ih alone]
      rfl

lemma spaced_eq (source : String) :
    spaced source = " ".intercalate ((ofSource source).map text) := by
  rw [spaced, ofSource, ofChars, List.map_map]
  rfl

lemma ofSource_spaced (source : String) : ofSource (spaced source) = ofSource source := by
  rw [spaced_eq]
  exact ofChars_intercalate fun token hm =>
    ofChars_text fun name et => lexable_of_ident_mem (et ▸ hm)

/-- There is no blank in the text of a token. -/
lemma isBlank_of_mem_text {token} (lx : ∀ name, token = ident name → Lexable name) :
    ∀ c ∈ token.text.toList, isBlank c = false := by
  have symbol : (∃ name, token = ident name) ∨
      (token.text.toList.all fun c => !isBlank c) = true := by
    cases token with
    | ident name => exact .inl ⟨name, rfl⟩
    | _ => exact .inr (by decide)
  cases symbol with
  | inl e =>
    obtain ⟨name, rfl⟩ := e
    exact fun c hc => ((lexable_iff_forall.1 (lx name rfl)).2.1 c hc).1
  | inr plain => simpa [List.all_eq_true] using plain

/-- Between texts without blanks, the spaces are the only blanks. -/
lemma eq_space_of_mem_intercalate {tokens : List Token}
    (plain : ∀ token ∈ tokens, ∀ c ∈ token.text.toList, isBlank c = false)
    (hm : c ∈ (" ".intercalate (tokens.map text)).toList) (hb : isBlank c = true) : c = ' ' := by
  induction tokens with
  | nil => simp at hm
  | cons token tokens ih =>
    obtain ⟨ht, plain⟩ := List.forall_mem_cons.1 plain
    have inside : c ∉ token.text.toList := fun hc => by
      rw [ht c hc] at hb
      cases hb
    cases tokens with
    | nil =>
      rw [List.map_singleton, String.intercalate_singleton] at hm
      exact absurd hm inside
    | cons next tokens =>
      rw [List.map_cons, List.map_cons, String.intercalate_cons_cons, String.toList_append,
        String.toList_append, List.mem_append, List.mem_append] at hm
      obtain (hm | hm) | hm := hm
      · exact absurd hm inside
      · exact List.mem_singleton.1 hm
      · exact ih plain hm

/-- The only blanks among tokens that are written with spaces between them are these. -/
lemma eq_space_of_mem_spaced {source : String} (hm : c ∈ (spaced source).toList)
    (hb : isBlank c = true) : c = ' ' := by
  rw [spaced_eq] at hm
  refine eq_space_of_mem_intercalate (fun token ht => ?_) hm hb
  exact isBlank_of_mem_text fun name e => lexable_of_ident_mem (e ▸ ht)

end Token

/-! ### Reading -/

/-- What an error says, apart from the place. -/
def SyntaxError.content (e : SyntaxError) :
    Option Token × List (Option Token) × Option Rule :=
  (e.found, e.expected, e.rule)

/-- Only the tokens count for what is read, and for what is wrong. -/
lemma Reader.mapError_run {length length' r} {ls ls' : List Lexeme}
    (e : ls.map Lexeme.token = ls'.map Lexeme.token) :
    (run length r ls).mapError SyntaxError.content =
      (run length' r ls').mapError SyntaxError.content := by
  induction ls generalizing r ls' with
  | nil =>
    cases List.map_eq_nil_iff.1 e.symm
    rw [run, run]
    cases r.state <;> rfl
  | cons l ls ih =>
    obtain ⟨l', ls', rfl, el, els⟩ := List.map_eq_cons_iff.1 e.symm
    rw [run, run, el]
    cases r.advance l.token with
    | none => rfl
    | some next => exact ih els.symm

/-- Sources with the same tokens have the same term, or errors that say the same. -/
lemma Term.mapError_parse {source source' : String}
    (e : Token.ofSource source = Token.ofSource source') :
    (parse source).mapError SyntaxError.content = (parse source').mapError SyntaxError.content :=
  Reader.mapError_run e

/-- Neither minifying a text nor writing its tokens with single spaces between them changes the
tokens, nor the term that is read from them or what is wrong with them. A minified text is minified
already, and the blanks in it are single spaces where words would run together. -/
theorem Token.minify_and_spaced_read_alike (source : String) :
    ofSource (minify source) = ofSource source ∧
      (Term.parse (minify source)).mapError SyntaxError.content =
        (Term.parse source).mapError SyntaxError.content ∧
      Answer.tokens source = [.line (spaced source)] ∧
      ofSource (spaced source) = ofSource source ∧
      (Term.parse (spaced source)).mapError SyntaxError.content =
        (Term.parse source).mapError SyntaxError.content ∧
      minify (minify source) = minify source ∧ Text.IsMinified (minify source).toList :=
  ⟨ofSource_minify source, Term.mapError_parse (ofSource_minify source), rfl,
    ofSource_spaced source, Term.mapError_parse (ofSource_spaced source),
    Text.minify_minify source, Text.isMinified_minify source⟩

/-- Next to a dot or a lambda blanks are not needed either, but only those at parentheses go. -/
example : minify " ( λ x .\tx  y ) " = "(λ x . x y)" := by
  decide +kernel

end WeakHead

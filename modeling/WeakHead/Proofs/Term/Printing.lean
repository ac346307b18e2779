import WeakHead.Proofs.Term.Indices
import WeakHead.Proofs.Term.Reading

/-!
# Reading what was printed

A term whose names can be read is read back from its text. All names of a term that was read can be
read.

Main statement: `parse_text_eq_ok_iff`.
-/

namespace WeakHead

open Text (isBlank)

namespace Term

/-- All names of the term, of variables and of binders, can be read. -/
def AllLexable : Term → Prop
  | var name => Lexable name
  | abs binder body => Lexable binder ∧ body.AllLexable
  | app fn arg => fn.AllLexable ∧ arg.AllLexable

instance AllLexable.decidable : (t : Term) → Decidable t.AllLexable
  | var name => inferInstanceAs (Decidable (Lexable name))
  | abs _ body =>
    have := AllLexable.decidable body
    inferInstanceAs (Decidable (_ ∧ _))
  | app fn arg =>
    have := AllLexable.decidable fn
    have := AllLexable.decidable arg
    inferInstanceAs (Decidable (_ ∧ _))

/-- The tokens of the text of a term. -/
def tokens : Term → List Token
  | var name => [.ident name]
  | abs binder body => .lambda :: .ident binder :: .dot :: body.tokens
  | app fn arg => .openParen :: (fn.tokens ++ arg.tokens ++ [.closeParen])

/-- The tokens of a text derive the term. -/
lemma derives_tokens (t : Term) : Derives t.tokens t := by
  induction t with
  | var name => exact .var name
  | abs binder body ih => exact .abs ih
  | app fn arg ihf iha => exact .group (.more (.first ihf) iha)

/-- The text of a term is cut into the tokens of the term, whatever comes behind it. -/
lemma ofChars_text {t : Term} (lx : t.AllLexable) {rest} (hr : Token.StopsWord rest) :
    Token.ofChars (t.text.toList ++ rest) = t.tokens ++ Token.ofChars rest := by
  induction t generalizing rest with
  | var name => exact lx.ofChars hr
  | abs binder body ih =>
    have lambda : Token.symbol? 'λ' = some .lambda := by decide
    have dot : Token.symbol? '.' = some .dot := by decide
    calc Token.ofChars ((abs binder body).text.toList ++ rest)
      _ = Token.ofChars ('λ' :: (binder.toList ++ '.' :: (body.text.toList ++ rest))) := by
        simp [text]
      _ = .lambda :: .ident binder :: .dot :: Token.ofChars (body.text.toList ++ rest) := by
        rw [Token.ofChars_symbol (by decide) lambda,
          lx.1.ofChars (Token.stopsWord_cons (by decide)),
          Token.ofChars_symbol (by decide) dot]
      _ = (abs binder body).tokens ++ Token.ofChars rest := by
        rw [ih lx.2 hr]
        rfl
  | app fn arg ihf iha =>
    have openParen : Token.symbol? '(' = some .openParen := by decide
    have closeParen : Token.symbol? ')' = some .closeParen := by decide
    calc Token.ofChars ((app fn arg).text.toList ++ rest)
      _ = Token.ofChars ('(' :: (fn.text.toList ++ ' ' :: (arg.text.toList ++ ')' :: rest))) := by
        simp [text]
      _ = .openParen :: (fn.tokens ++ (arg.tokens ++ .closeParen :: Token.ofChars rest)) := by
        rw [Token.ofChars_symbol (by decide) openParen, ihf lx.1 (Token.stopsWord_cons (by decide)),
          Token.ofChars_blank (by decide), iha lx.2 (Token.stopsWord_cons (by decide)),
          Token.ofChars_symbol (by decide) closeParen]
      _ = (app fn arg).tokens ++ Token.ofChars rest := by
        simp [tokens]

/-- A term whose names can be read is read back from its text. -/
lemma parse_text {t : Term} (lx : t.AllLexable) : Term.parse t.text = .ok t := by
  rw [parse_eq_ok_iff, Token.ofSource, ← List.append_nil t.text.toList, ofChars_text lx (by nofun),
    Token.ofChars_nil, List.append_nil]
  exact t.derives_tokens

/-- The names of a derived term stand among the tokens, so they can be read if these can. -/
lemma allLexable_of_derives {ts : List Token} {t : Term} (de : Derives ts t)
    (lx : ∀ name, .ident name ∈ ts → Lexable name) : t.AllLexable := by
  induction de using Derives.rec
    (motive_2 := fun ts t _ => (∀ name, .ident name ∈ ts → Lexable name) → t.AllLexable) with
  | var name => exact lx name (List.mem_singleton_self _)
  | abs _ ih => exact ⟨lx _ (by simp), ih fun name hm => lx name (by simp [hm])⟩
  | binding _ _ ihv ihb =>
    exact ⟨⟨lx _ (by simp), ihb fun name hm => lx name (by simp [hm])⟩,
      ihv fun name hm => lx name (by simp [hm])⟩
  | group _ ih => exact ih fun name hm => lx name (by simp [hm])
  | first _ ih => exact ih ‹_›
  | more _ _ ihts ihus =>
    have lx := ‹∀ name, Token.ident name ∈ _ → Lexable name›
    exact ⟨ihts fun name hm => lx name (by simp [hm]), ihus fun name hm => lx name (by simp [hm])⟩

/-- All names of a term that was read can be read. -/
lemma allLexable_of_parse {source t} (e : Term.parse source = .ok t) : t.AllLexable :=
  allLexable_of_derives (parse_eq_ok_iff.1 e) fun _ hm => lexable_of_ident_mem hm

/-- The free names of a term can be read if all its names can. -/
lemma AllLexable.of_mem_freeNames {t : Term} (lx : t.AllLexable) {x} (hx : x ∈ t.freeNames) :
    Lexable x := by
  induction t with
  | var name => exact mem_freeNames_var.1 hx ▸ lx
  | abs binder body ih => exact ih lx.2 (mem_freeNames_abs.1 hx).1
  | app fn arg ihf iha =>
    cases mem_freeNames_app.1 hx with
    | inl hx => exact ihf lx.1 hx
    | inr hx => exact iha lx.2 hx

/-- The names in a term, of variables and of binders. -/
def names : Term → List String
  | var name => [name]
  | abs binder body => binder :: body.names
  | app fn arg => fn.names ++ arg.names

lemma allLexable_iff {t : Term} : t.AllLexable ↔ ∀ name ∈ t.names, Lexable name := by
  induction t with
  | var name => simp [AllLexable, names]
  | abs binder body ih => simp [AllLexable, names, ih]
  | app fn arg ihf iha => simp [AllLexable, names, ihf, iha, or_imp, forall_and]

/-- A term is read back from its text exactly if each of its names has a character, none that is
blank or a symbol, and is no reserved word. No other name goes unnoticed, wherever it stands: what
is read is another term or none. -/
theorem parse_text_eq_ok_iff (t : Term) :
    Term.parse t.text = .ok t ↔ ∀ name ∈ t.names, name ≠ "" ∧
      (∀ c ∈ name.toList, isBlank c = false ∧ c ∉ ['(', ')', '.', 'λ', '\\']) ∧
      name ∉ ["let", "in", "="] := by
  simp only [← lexable_iff_forall, ← allLexable_iff]
  exact ⟨allLexable_of_parse, parse_text⟩

end Term

end WeakHead

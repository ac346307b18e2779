import WeakHead.Proofs.BinderNames
import WeakHead.Proofs.Heap.Shared
import WeakHead.Proofs.Session.Answer
import WeakHead.Proofs.Token.Spacing

/-!
# What bracketed forms tell

Bracketed forms are words, pairs and triples, whether the term has names or indices. The tokens of
such a form tell it, since every parenthesis that is opened is closed, and the form tells the term.
Minifying leaves the tokens as they are. So terms can be compared by their bracketed forms, and also
by what minifying leaves of these.

Main statement: `Heap.minify_bracketed_eq_iff`.
-/

namespace WeakHead

open Text (minify)

/-- A token that stands alone, or two or three forms in parentheses. -/
inductive Form where
  | word (token : Token)
  | pair (first second : Form)
  | triple (first second third : Form)

namespace Form

/-- The form as it is written. -/
def text : Form → String
  | word token => token.text
  | pair first second => "(" ++ first.text ++ " " ++ second.text ++ ")"
  | triple first second third =>
    "(" ++ first.text ++ " " ++ second.text ++ " " ++ third.text ++ ")"

/-- The tokens of the form. -/
def tokens : Form → List Token
  | word token => [token]
  | pair first second => .openParen :: (first.tokens ++ second.tokens ++ [.closeParen])
  | triple first second third =>
    .openParen :: (first.tokens ++ second.tokens ++ third.tokens ++ [.closeParen])

/-- The words of the form are read as they are, and none is a parenthesis. -/
def Readable : Form → Prop
  | word token =>
    Token.ofChars token.text.toList = [token] ∧ token ≠ .openParen ∧ token ≠ .closeParen
  | pair first second => first.Readable ∧ second.Readable
  | triple first second third => first.Readable ∧ second.Readable ∧ third.Readable

variable {form form' : Form}

/-- A form is cut into its tokens. -/
lemma Readable.ofChars_text (rd : form.Readable) :
    Token.ofChars form.text.toList = form.tokens := by
  have openParen : ∀ cs, Token.ofChars ('(' :: cs) = .openParen :: Token.ofChars cs :=
    Token.ofChars_symbol (by decide) (by decide)
  have blank : ∀ cs cs', Token.ofChars (cs ++ ' ' :: cs') = Token.ofChars cs ++ Token.ofChars cs' :=
    fun cs cs' => Token.ofChars_append_blank (by decide)
  have closeParen : ∀ cs, Token.ofChars (cs ++ [')']) = Token.ofChars cs ++ [.closeParen] := by
    intro cs
    have symbol : Token.symbol? ')' = some .closeParen := by decide
    rw [Token.ofChars_append_of_stops (Token.stopsWord_cons (by decide)),
      Token.ofChars_symbol (by decide) symbol, Token.ofChars_nil]
  induction form with
  | word token => exact rd.1
  | pair first second ih ih' =>
    have e : (pair first second).text.toList =
        '(' :: (first.text.toList ++ ' ' :: (second.text.toList ++ [')'])) := by simp [text]
    rw [e, openParen, blank, closeParen, ih rd.1, ih' rd.2, tokens, List.append_assoc]
  | triple first second third ih ih' ih'' =>
    have e : (triple first second third).text.toList =
        '(' :: (first.text.toList ++ ' ' ::
          (second.text.toList ++ ' ' :: (third.text.toList ++ [')']))) := by simp [text]
    rw [e, openParen, blank, blank, closeParen, ih rd.1, ih' rd.2.1, ih'' rd.2.2, tokens,
      List.append_assoc, List.append_assoc]

/-! ### What tokens tell -/

lemma tokens_pair_append (first second rest) : (pair first second).tokens ++ rest =
    .openParen :: (first.tokens ++ (second.tokens ++ .closeParen :: rest)) := by
  simp [tokens]

lemma tokens_triple_append (first second third rest) :
    (triple first second third).tokens ++ rest = .openParen ::
      (first.tokens ++ (second.tokens ++ (third.tokens ++ .closeParen :: rest))) := by
  simp [tokens]

/-- No form begins with the end of another. -/
lemma Readable.tokens_append_ne (rd : form.Readable) (rest rest') :
    form.tokens ++ rest ≠ .closeParen :: rest' := by
  intro e
  cases form with
  | word token => exact rd.2.2 (List.cons.inj e).1
  | _ => cases e

/-- The tokens of a form tell the form, and what comes behind it. -/
lemma Readable.tokens_append_inj (rd : form.Readable) (rd' : form'.Readable) {rest rest'}
    (e : form.tokens ++ rest = form'.tokens ++ rest') : form = form' ∧ rest = rest' := by
  induction form generalizing form' rest rest' with
  | word token =>
    cases form' with
    | word token' =>
      obtain ⟨et, er⟩ := List.cons.inj e
      exact ⟨congrArg word et, er⟩
    | _ => exact absurd (List.cons.inj e).1 rd.2.1
  | pair first second ih ih' =>
    rw [tokens_pair_append] at e
    cases form' with
    | word token' => exact absurd (List.cons.inj e).1.symm rd'.2.1
    | pair first' second' =>
      rw [tokens_pair_append] at e
      obtain ⟨rfl, e₁⟩ := ih rd.1 rd'.1 (List.cons.inj e).2
      obtain ⟨rfl, e₂⟩ := ih' rd.2 rd'.2 e₁
      exact ⟨rfl, (List.cons.inj e₂).2⟩
    | triple first' second' third' =>
      rw [tokens_triple_append] at e
      -- Where the pair is closed, the triple goes on.
      obtain ⟨-, e₁⟩ := ih rd.1 rd'.1 (List.cons.inj e).2
      obtain ⟨-, e₂⟩ := ih' rd.2 rd'.2.1 e₁
      exact absurd e₂.symm (rd'.2.2.tokens_append_ne _ _)
  | triple first second third ih ih' ih'' =>
    rw [tokens_triple_append] at e
    cases form' with
    | word token' => exact absurd (List.cons.inj e).1.symm rd'.2.1
    | pair first' second' =>
      rw [tokens_pair_append] at e
      obtain ⟨-, e₁⟩ := ih rd.1 rd'.1 (List.cons.inj e).2
      obtain ⟨-, e₂⟩ := ih' rd.2.1 rd'.2 e₁
      exact absurd e₂ (rd.2.2.tokens_append_ne _ _)
    | triple first' second' third' =>
      rw [tokens_triple_append] at e
      obtain ⟨rfl, e₁⟩ := ih rd.1 rd'.1 (List.cons.inj e).2
      obtain ⟨rfl, e₂⟩ := ih' rd.2.1 rd'.2.1 e₁
      obtain ⟨rfl, e₃⟩ := ih'' rd.2.2 rd'.2.2 e₂
      exact ⟨rfl, (List.cons.inj e₃).2⟩

/-- What minifying leaves of a form tells the form. -/
lemma Readable.eq_of_minify (rd : form.Readable) (rd' : form'.Readable)
    (e : minify form.text = minify form'.text) : form = form' := by
  have et := congrArg Token.ofSource e
  rw [Token.ofSource_minify, Token.ofSource_minify, Token.ofSource, Token.ofSource,
    rd.ofChars_text, rd'.ofChars_text] at et
  exact (rd.tokens_append_inj rd' (congrArg (· ++ []) et)).1

/-! ### Words -/

lemma readable_lambda : (word .lambda).Readable :=
  ⟨Token.ofChars_text nofun, nofun, nofun⟩

lemma readable_ident {name} (lx : Lexable name) : (word (.ident name)).Readable :=
  ⟨lx.ofChars_alone, nofun, nofun⟩

/-- The digits of a number tell the number. -/
lemma toString_injective : Function.Injective (toString : Nat → String) := by
  intro n m e
  have ed : Nat.toDigits 10 n = Nat.toDigits 10 m := by
    rw [← Nat.toList_repr, ← Nat.toList_repr]
    exact congrArg String.toList e
  rw [← @Nat.ofDigitChars_ten_toDigits n, ed, Nat.ofDigitChars_ten_toDigits]

/-- A number is read as an identifier. -/
lemma lexable_toString (n : Nat) : Lexable (toString n) := by
  have digits : ∀ c ∈ (toString n).toList, c.isDigit = true := fun c hc =>
    Nat.isDigit_of_mem_toDigits (by decide) (by decide) (Nat.toList_repr ▸ hc)
  have reserved : ∀ word ∈ ["let", "in", "="],
      (String.toList word).any (fun c => !c.isDigit) = true := by decide
  refine ⟨?_, fun c hc => BinderNames.endsWord_of_isDigit (digits c hc),
    Token.ofWord_eq_ident_iff.2 fun hm => ?_⟩
  · rw [Nat.toString_eq_repr, Nat.toList_repr]
    exact Nat.toDigits_ne_nil
  · obtain ⟨c, hc, hd⟩ := List.any_eq_true.1 (reserved _ hm)
    rw [digits c hc] at hd
    cases hd

end Form

/-! ### The forms of terms -/

/-- The form of a term with indices. -/
def IndexTerm.form : IndexTerm → Form
  | idx index => .word (.ident (toString index))
  | lam body => .pair (.word .lambda) body.form
  | app fn arg => .pair fn.form arg.form

/-- The form of a term with names. -/
def Term.form : Term → Form
  | var name => .word (.ident name)
  | abs binder body => .triple (.word .lambda) (.word (.ident binder)) body.form
  | app fn arg => .pair fn.form arg.form

namespace IndexTerm

lemma text_form (t : IndexTerm) : t.form.text = t.bracketed := by
  induction t with
  | idx index => rfl
  | lam body ih =>
    rw [form, Form.text, ih]
    rfl
  | app fn arg ihf iha => rw [form, Form.text, ihf, iha, bracketed]

lemma readable_form (t : IndexTerm) : t.form.Readable := by
  induction t with
  | idx index => exact Form.readable_ident (Form.lexable_toString index)
  | lam body ih => exact ⟨Form.readable_lambda, ih⟩
  | app fn arg ihf iha => exact ⟨ihf, iha⟩

lemma form_ne_lambda (t : IndexTerm) : t.form ≠ .word .lambda := by
  cases t <;> nofun

lemma form_injective : Function.Injective form := by
  intro t u e
  induction t generalizing u with
  | idx index =>
    cases u with
    | idx index' =>
      simp only [form, Form.word.injEq, Token.ident.injEq] at e
      rw [Form.toString_injective e]
    | _ => cases e
  | lam body ih =>
    cases u with
    | idx index' => cases e
    | lam body' => rw [ih (Form.pair.inj e).2]
    | app fn' arg' => exact absurd (Form.pair.inj e).1.symm fn'.form_ne_lambda
  | app fn arg ihf iha =>
    cases u with
    | idx index' => cases e
    | lam body' => exact absurd (Form.pair.inj e).1 fn.form_ne_lambda
    | app fn' arg' =>
      obtain ⟨ef, ea⟩ := Form.pair.inj e
      rw [ihf ef, iha ea]

lemma eq_of_minify {t u : IndexTerm} (e : minify t.bracketed = minify u.bracketed) : t = u := by
  rw [← text_form, ← text_form] at e
  exact form_injective (t.readable_form.eq_of_minify u.readable_form e)

/-- The bracketed form tells the term. -/
lemma bracketed_injective : Function.Injective bracketed :=
  fun _ _ e => eq_of_minify (congrArg minify e)

end IndexTerm

namespace Term

variable {t u : Term}

lemma text_form (t : Term) : t.form.text = t.bracketed := by
  induction t with
  | var name => rfl
  | abs binder body ih =>
    rw [form, Form.text, ih]
    show "(" ++ "λ" ++ " " ++ binder ++ " " ++ body.bracketed ++ ")" = _
    rfl
  | app fn arg ihf iha => rw [form, Form.text, ihf, iha, bracketed]

lemma AllLexable.readable_form (lx : t.AllLexable) : t.form.Readable := by
  induction t with
  | var name => exact Form.readable_ident lx
  | abs binder body ih => exact ⟨Form.readable_lambda, Form.readable_ident lx.1, ih lx.2⟩
  | app fn arg ihf iha => exact ⟨ihf lx.1, iha lx.2⟩

lemma form_injective : Function.Injective form := by
  intro t u e
  induction t generalizing u with
  | var name =>
    cases u with
    | var name' =>
      cases e
      rfl
    | _ => cases e
  | abs binder body ih =>
    cases u with
    | abs binder' body' =>
      simp only [form, Form.triple.injEq, Form.word.injEq, Token.ident.injEq, true_and] at e
      rw [e.1, ih e.2]
    | _ => cases e
  | app fn arg ihf iha =>
    cases u with
    | app fn' arg' =>
      obtain ⟨ef, ea⟩ := Form.pair.inj e
      rw [ihf ef, iha ea]
    | _ => cases e

/-- Named terms that are minified to one text are equal, if their names can be read. -/
lemma AllLexable.eq_of_minify (lx : t.AllLexable) (lx' : u.AllLexable)
    (e : minify t.bracketed = minify u.bracketed) : t = u := by
  rw [← text_form, ← text_form] at e
  exact form_injective (lx.readable_form.eq_of_minify lx'.readable_form e)

end Term

/-! ### The forms in a heap -/

/-- The names in a node. -/
def Node.names : Node → List String
  | var name => [name]
  | abs binder _ => [binder]
  | _ => []

namespace Heap

/-- The slot is in the heap, all slots that it reaches are of one kind, and none of them is part of
itself. -/
structure MakesTerm (h : Heap) (kind : Slot → Prop) (slot : Slot) : Prop where
  lt_size : slot < h.size
  reached : ∀ x, h.Reaches slot x → kind x
  acyclic : ∀ x, h.Reaches slot x → ∀ path, h.follow x path = some x → path = []

/-- The slot holds a node with names, and these can be read. -/
def HoldsLexable (h : Heap) (slot : Slot) : Prop :=
  h.HoldsNames slot ∧ ∀ node, h.get slot = .ok node → ∀ name ∈ node.names, Lexable name

variable {h : Heap} {slot : Slot}

lemma makesTerm_of_parts_lt {kind} (hs : slot < h.size) (all : ∀ x < h.size, kind x)
    (parts : ∀ x (hx : x < h.nodes.size), ∀ part ∈ h.nodes[x].parts, part < x) :
    h.MakesTerm kind slot :=
  ⟨hs, fun x hr => all x hr.lt_size, fun x _ => acyclic_of_parts_lt (parts_lt_of_nodes parts) x⟩

lemma makesTerm_iff_exists_unfolds : h.MakesTerm h.HoldsIndices slot ↔ ∃ t, h.Unfolds slot t := by
  rw [exists_unfolds_iff]
  exact ⟨fun mk => ⟨mk.lt_size, mk.reached, mk.acyclic⟩, fun ⟨hs, reached, acyclic⟩ =>
    ⟨hs, reached, acyclic⟩⟩

/-- The names in a node can be read if they can in all that is reached. -/
lemma lexable_of_reached (reached : ∀ x, h.Reaches slot x → h.HoldsLexable x) {node}
    (hg : h.get slot = .ok node) : ∀ name ∈ node.names, Lexable name :=
  (reached slot (reaches_self (lt_size_of_get_eq_ok hg))).2 node hg

/-- The names of a term can be read if they can in all slots that are reached. -/
lemma UnfoldsNamed.allLexable {t} (un : h.UnfoldsNamed slot t)
    (reached : ∀ x, h.Reaches slot x → h.HoldsLexable x) : t.AllLexable := by
  induction un with
  | @var _ name hg => exact lexable_of_reached reached hg name (List.mem_singleton_self name)
  | @abs _ _ binder _ hg _ ih =>
    exact ⟨lexable_of_reached reached hg binder (List.mem_singleton_self binder),
      ih fun x hr => reached x (hr.of_part (i := 0) hg rfl)⟩
  | app hg _ _ ihf iha =>
    exact ⟨ihf fun x hr => reached x (hr.of_part (i := 0) hg rfl),
      iha fun x hr => reached x (hr.of_part (i := 1) hg rfl)⟩

/-- A slot that makes a term with names stands for one, and is written as it. -/
lemma MakesTerm.exists_unfoldsNamed (mk : h.MakesTerm h.HoldsLexable slot) : ∃ t : Term,
    h.UnfoldsNamed slot t ∧ t.AllLexable ∧ h.bracketed slot = .ok t.bracketed := by
  obtain ⟨t, un, hd⟩ :=
    Heap.exists_unfoldsNamed mk.lt_size (fun x hr => (mk.reached x hr).1) mk.acyclic
  have e := un.bracketedWithin_ok hd ""
  rw [String.empty_append] at e
  exact ⟨t, un, un.allLexable mk.reached, e⟩

/-- Where slots stand for terms, the bracketed forms come out the same after minifying exactly if
the terms are the same: terms with indices, and terms with names that can be read. -/
theorem minify_bracketed_eq_iff (h h' : Heap) (slot slot' : Slot) :
    (h.MakesTerm h.HoldsIndices slot → h'.MakesTerm h'.HoldsIndices slot' →
      ∃ t t' s s', h.Unfolds slot t ∧ h'.Unfolds slot' t' ∧
        h.bracketed slot = .ok s ∧ h'.bracketed slot' = .ok s' ∧
        (minify s = minify s' ↔ t = t')) ∧
    (h.MakesTerm h.HoldsLexable slot → h'.MakesTerm h'.HoldsLexable slot' →
      ∃ t t' s s', h.UnfoldsNamed slot t ∧ h'.UnfoldsNamed slot' t' ∧
        h.bracketed slot = .ok s ∧ h'.bracketed slot' = .ok s' ∧
        (minify s = minify s' ↔ t = t')) := by
  constructor
  · intro mk mk'
    obtain ⟨t, un⟩ := makesTerm_iff_exists_unfolds.1 mk
    obtain ⟨t', un'⟩ := makesTerm_iff_exists_unfolds.1 mk'
    exact ⟨t, t', _, _, un, un', un.bracketed_ok, un'.bracketed_ok,
      IndexTerm.eq_of_minify, fun e => e ▸ rfl⟩
  · intro mk mk'
    obtain ⟨t, un, lx, e⟩ := mk.exists_unfoldsNamed
    obtain ⟨t', un', lx', e'⟩ := mk'.exists_unfoldsNamed
    exact ⟨t, t', _, _, un, un', e, e', lx.eq_of_minify lx', fun e => e ▸ rfl⟩

/-- Two terms whose forms have the same digits, and a term with names that is written alike whether
or not its variables share a node. -/
theorem minify_bracketed_digits_and_shared :
    let h : Heap := ⟨#[.idx 12, .app 0 0, .lam 1]⟩
    let h' : Heap := ⟨#[.idx 1, .idx 212, .app 0 1, .lam 2]⟩
    let k : Heap := ⟨#[.var "x", .app 0 0, .abs "x" 1]⟩
    let k' : Heap := ⟨#[.var "x", .var "x", .app 0 1, .abs "x" 2]⟩
    (∃ s s', h.bracketed 2 = .ok s ∧ h'.bracketed 3 = .ok s' ∧ minify s ≠ minify s') ∧
      ∃ s s', k.bracketed 2 = .ok s ∧ k'.bracketed 3 = .ok s' ∧ minify s = minify s' := by
  intro h h' k k'
  have un : h.Unfolds 2 (.lam (.app (.idx 12) (.idx 12))) :=
    .lam rfl (.app rfl (.idx rfl) (.idx rfl))
  have un' : h'.Unfolds 3 (.lam (.app (.idx 1) (.idx 212))) :=
    .lam rfl (.app rfl (.idx rfl) (.idx rfl))
  have lexable : ∀ (h : Heap) x, (∀ node ∈ h.nodes[x]?, ∀ name ∈ node.names, Lexable name) →
      ∀ node, h.get x = .ok node → ∀ name ∈ node.names, Lexable name :=
    fun h x all node hg => all node (get_eq_ok_iff.1 hg)
  have names : ∀ x < 3, k.HoldsLexable x
    | 0, _ => ⟨.inl ⟨"x", rfl⟩, lexable k 0 (by decide)⟩
    | 1, _ => ⟨.inr (.inr ⟨0, 0, rfl, by decide, by decide⟩), lexable k 1 (by decide)⟩
    | 2, _ => ⟨.inr (.inl ⟨"x", 1, rfl, by decide⟩), lexable k 2 (by decide)⟩
  have names' : ∀ x < 4, k'.HoldsLexable x
    | 0, _ => ⟨.inl ⟨"x", rfl⟩, lexable k' 0 (by decide)⟩
    | 1, _ => ⟨.inl ⟨"x", rfl⟩, lexable k' 1 (by decide)⟩
    | 2, _ => ⟨.inr (.inr ⟨0, 1, rfl, by decide, by decide⟩), lexable k' 2 (by decide)⟩
    | 3, _ => ⟨.inr (.inl ⟨"x", 2, rfl, by decide⟩), lexable k' 3 (by decide)⟩
  obtain ⟨t, t', s, s', unt, unt', e, e', eq⟩ := (minify_bracketed_eq_iff h h' 2 3).1
    (makesTerm_iff_exists_unfolds.2 ⟨_, un⟩) (makesTerm_iff_exists_unfolds.2 ⟨_, un'⟩)
  obtain ⟨u, u', r, r', unk, unk', ek, ek', eqk⟩ := (minify_bracketed_eq_iff k k' 2 3).2
    (makesTerm_of_parts_lt (by decide) names (by decide))
    (makesTerm_of_parts_lt (by decide) names' (by decide))
  refine ⟨⟨s, s', e, e', fun em => ?_⟩, r, r', ek, ek', eqk.2 ?_⟩
  · cases unt.unique un
    cases unt'.unique un'
    cases eq.1 em
  · cases unk.unique (.abs rfl (.app rfl (.var rfl) (.var rfl)))
    exact (unk'.unique (.abs rfl (.app rfl (.var rfl) (.var rfl)))).symm

end Heap

end WeakHead

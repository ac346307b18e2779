import Mathlib.Data.List.Pairwise
import Mathlib.Data.List.Sort
import WeakHead.Proofs.Token
import WeakHead.Token.Cut
import WeakHead.Token.Lexer

/-!
# One cut for every text

A text can be cut into tokens in one way only: the symbols in it are tokens, a word reaches as far
as it can on both sides, and what is neither is blank. A scan finds this cut, and so does a lexer
that is put together from pieces which may fail; so lexing never fails.

Main statement: `cuts_iff_eq_scan`.
-/

namespace WeakHead

open Text (isBlank)

namespace Token

lemma symbol?_eq_some_iff {c token} : symbol? c = some token ↔ (c, token) ∈ symbols := by
  simp only [symbol?, symbols, List.mem_cons, List.not_mem_nil, or_false, Prod.mk.injEq]
  split_ifs with h₁ h₂ h₃ h₄ <;> simp_all [eq_comm, ← or_and_right]

lemma endsWord_of_symbol {c token} (hm : (c, token) ∈ symbols) : endsWord c = true := by
  rw [endsWord, symbol?_eq_some_iff.2 hm, Option.isSome_some, Bool.or_true]

lemma isBlank_of_symbol {c token} (hm : (c, token) ∈ symbols) : isBlank c = false := by
  have h : ∀ p ∈ symbols, isBlank p.1 = false := by decide
  exact h (c, token) hm

/-- The characters of words are those that are neither blank nor a symbol. -/
lemma endsWord_eq_false_iff {c} :
    endsWord c = false ↔ isBlank c = false ∧ c ∉ ['(', ')', '.', 'λ', '\\'] := by
  rw [← Bool.not_eq_true, endsWord_iff, not_or, Bool.not_eq_true]

@[simp] lemma text_ofWord (word) : (ofWord word).text = word := by
  unfold ofWord
  split_ifs with h₁ h₂ h₃
  · exact h₁.symm
  · exact h₂.symm
  · exact h₃.symm
  · rfl

end Token

namespace Lexeme

variable {text : List Char} {l : Lexeme}

/-- A character in the range of a lexeme is one of its characters. -/
lemma mem_chars {i : Nat} {c} (hs : l.start ≤ i) (hi : i < l.stop) (hc : text[i]? = some c) :
    c ∈ l.chars text := by
  refine List.mem_of_getElem? (i := i - l.start) ?_
  rw [chars, List.getElem?_take_of_lt (by omega), List.getElem?_drop, Nat.add_sub_cancel' hs, hc]

/-- A word is a run of characters that end no word, with the token of that run. -/
lemma isWord_iff : l.IsWord text ↔
    (∀ c ∈ l.chars text, Token.endsWord c = false) ∧
      l.token = Token.ofWord (String.ofList (l.chars text)) := by
  simp only [Token.endsWord_eq_false_iff]
  constructor
  · intro w
    refine ⟨w.inside, ?_⟩
    rw [← w.text_eq, String.ofList_toList, Token.ofWord]
    split_ifs with h₁ h₂ h₃
    · exact w.let_iff.2 h₁
    · exact w.in_iff.2 h₂
    · exact w.equals_iff.2 h₃
    · exact w.ident_iff.2 (by simp [h₁, h₂, h₃])
  · rintro ⟨inside, e⟩
    generalize hw : String.ofList (l.chars text) = word at e
    have et : l.token.text = word := by rw [e, Token.text_ofWord]
    refine ⟨inside, by rw [et, ← hw, String.toList_ofList], ?_, ?_, ?_, ?_⟩ <;> rw [et, e]
    · rw [Token.ofWord]
      split_ifs <;> simp_all
    · rw [Token.ofWord]
      split_ifs <;> simp_all
    · rw [Token.ofWord]
      split_ifs <;> simp_all
    · exact Token.ofWord_eq_ident_iff

/-- No character of a word ends it. -/
lemma IsWord.endsWord_eq_false {i : Nat} {c} (w : l.IsWord text) (hs : l.start ≤ i)
    (hi : i < l.stop) (hc : text[i]? = some c) : Token.endsWord c = false :=
  (isWord_iff.1 w).1 c (mem_chars hs hi hc)

end Lexeme

namespace Token.Cuts

variable {text : List Char} {pos : Nat} {ls ls' : List Lexeme} {l l' : Lexeme} {i : Nat} {c : Char}

/-! ### There is one cut at most -/

lemma exists_get (cut : Cuts text pos ls) (hl : l ∈ ls) (hi : i < l.stop) :
    ∃ c, text[i]? = some c :=
  ⟨_, List.getElem?_eq_getElem (Nat.lt_of_lt_of_le hi (cut.stop_le l hl))⟩

/-- Of two lexemes of a cut, one lies before the other. -/
lemma stop_le_or_stop_le (cut : Cuts text pos ls) (hl : l ∈ ls) (hl' : l' ∈ ls) (ne : l ≠ l') :
    l.stop ≤ l'.start ∨ l'.stop ≤ l.start := by
  have sides : ls.Pairwise fun a b => a.stop ≤ b.start ∨ b.stop ≤ a.start :=
    cut.ordered.imp fun le => .inl le
  have : Std.Symm fun a b : Lexeme => a.stop ≤ b.start ∨ b.stop ≤ a.start :=
    ⟨fun _ _ => Or.symm⟩
  exact sides.forall hl hl' ne

/-- A character that ends no word lies in a word of the cut. -/
lemma exists_word (cut : Cuts text pos ls) (hp : pos ≤ i) (hc : text[i]? = some c)
    (he : endsWord c = false) : ∃ l ∈ ls, l.IsWord text ∧ l.start ≤ i ∧ i < l.stop := by
  have hb : isBlank c = false := (endsWord_eq_false_iff.1 he).1
  have covered : ∃ l ∈ ls, l.start ≤ i ∧ i < l.stop := by
    by_contra hn
    push Not at hn
    have hb' := cut.blank i c hp hc fun l hl hi => absurd hi.2 (Nat.not_lt.2 (hn l hl hi.1))
    exact absurd hb' (by rw [hb]; decide)
  obtain ⟨l, hl, hs, hi⟩ := covered
  refine ⟨l, hl, cut.word l hl ?_, hs, hi⟩
  rintro ⟨d, hd, hm, es⟩
  -- A symbol is one character long, so it would be this one.
  obtain rfl : i = l.start := by omega
  cases hc.symm.trans hd
  rw [endsWord_of_symbol hm] at he
  cases he

/-- Words of two cuts that meet begin at the same place. -/
lemma start_le (cut : Cuts text pos ls) (cut' : Cuts text pos ls') (hl : l ∈ ls) (hl' : l' ∈ ls')
    (w : l.IsWord text) (w' : l'.IsWord text) (hi : l.start ≤ i) (hi' : i < l'.stop) :
    l.start ≤ l'.start := by
  by_contra lt
  -- The character before the word is in the other one, so it is in another word of the first cut.
  obtain ⟨c, hc⟩ := cut'.exists_get hl' (i := l.start - 1) (by omega)
  have he := w'.endsWord_eq_false (by omega) (by omega) hc
  have hp := cut'.le_start l' hl'
  obtain ⟨m, hm, wm, hs, hlt⟩ := cut.exists_word (by omega) hc he
  have ne : m ≠ l := by
    rintro rfl
    omega
  have := cut.start_lt_stop l hl
  rcases cut.stop_le_or_stop_le hm hl ne with le | le
  · exact cut.apart m hm l hl wm w (by omega)
  · omega

/-- A word of one cut that begins before the end of a word of another reaches no further. -/
lemma stop_le_stop (cut : Cuts text pos ls) (cut' : Cuts text pos ls') (hl : l ∈ ls)
    (hl' : l' ∈ ls') (w : l.IsWord text) (w' : l'.IsWord text) (hi : l'.start ≤ i)
    (hi' : i < l.stop) : l'.stop ≤ l.stop := by
  by_contra lt
  obtain ⟨c, hc⟩ := cut'.exists_get hl' (i := l.stop) (by omega)
  have he := w'.endsWord_eq_false (by omega) (by omega) hc
  have hp := cut'.le_start l' hl'
  obtain ⟨m, hm, wm, hs, hlt⟩ := cut.exists_word (by omega) hc he
  have ne : l ≠ m := by
    rintro rfl
    omega
  have := cut.start_lt_stop l hl
  rcases cut.stop_le_or_stop_le hl hm ne with le | le
  · exact cut.apart l hl m hm w wm (by omega)
  · omega

/-- A lexeme of one cut is one of any other. -/
lemma mem_of_mem (cut : Cuts text pos ls) (cut' : Cuts text pos ls') (hl : l ∈ ls) : l ∈ ls' := by
  have hp := cut.le_start l hl
  by_cases sy : l.IsSymbol text
  · obtain ⟨c, hc, hm, es⟩ := sy
    have hm' := cut'.symbol l.start c l.token hp hc hm
    rwa [← es] at hm'
  · have w := cut.word l hl sy
    have lt := cut.start_lt_stop l hl
    obtain ⟨c, hc⟩ := cut.exists_get hl lt
    have he := w.endsWord_eq_false (Nat.le_refl _) lt hc
    obtain ⟨l', hl', w', hs, hi⟩ := cut'.exists_word hp hc he
    have start : l.start = l'.start :=
      Nat.le_antisymm (cut.start_le cut' hl hl' w w' (Nat.le_refl _) hi) hs
    have stop : l.stop = l'.stop :=
      Nat.le_antisymm (cut'.stop_le_stop cut hl' hl w' w (Nat.le_refl _) hi)
        (cut.stop_le_stop cut' hl hl' w w' hs lt)
    have token : l.token = l'.token := by
      rw [(Lexeme.isWord_iff.1 w).2, (Lexeme.isWord_iff.1 w').2, Lexeme.chars, Lexeme.chars, start,
        stop]
    obtain ⟨t, a, b⟩ := l
    obtain ⟨t', a', b'⟩ := l'
    cases start
    cases stop
    cases token
    exact hl'

/-- There is no more than one cut of a text. -/
lemma unique (cut : Cuts text pos ls) (cut' : Cuts text pos ls') : ls = ls' := by
  have lt : ∀ {ls}, Cuts text pos ls → ls.Pairwise fun a b => a.start < b.start := fun cut =>
    cut.ordered.imp_of_mem fun ha _ le => Nat.lt_of_lt_of_le (cut.start_lt_stop _ ha) le
  have : Std.Irrefl fun a b : Lexeme => a.start < b.start := ⟨fun a => Nat.lt_irrefl a.start⟩
  have : Std.Antisymm fun a b : Lexeme => a.start < b.start :=
    ⟨fun a b h h' => absurd h' (Nat.lt_asymm h)⟩
  exact (lt cut).eq_of_mem_iff (lt cut') fun l => ⟨cut.mem_of_mem cut', cut'.mem_of_mem cut⟩

/-! ### A scan is a cut -/

lemma nil (hp : text.length ≤ pos) : Cuts text pos [] where
  start_lt_stop := nofun
  ordered := .nil
  le_start := nofun
  stop_le := nofun
  blank i c hi hc := by
    obtain ⟨lt, -⟩ := List.getElem?_eq_some_iff.1 hc
    omega
  symbol i c token hi hc := by
    obtain ⟨lt, -⟩ := List.getElem?_eq_some_iff.1 hc
    omega
  word := nofun
  apart := nofun

/-- A blank may stand before a cut. -/
lemma skip (hc : text[pos]? = some c) (hb : isBlank c = true) (cut : Cuts text (pos + 1) ls) :
    Cuts text pos ls where
  start_lt_stop := cut.start_lt_stop
  ordered := cut.ordered
  le_start l hl := Nat.le_of_succ_le (cut.le_start l hl)
  stop_le := cut.stop_le
  blank i d hi hd out := by
    cases Nat.eq_or_lt_of_le hi with
    | inl e =>
      cases e
      cases hc.symm.trans hd
      exact hb
    | inr lt => exact cut.blank i d lt hd out
  symbol i d token hi hd hm := by
    cases Nat.eq_or_lt_of_le hi with
    | inl e =>
      cases e
      cases hc.symm.trans hd
      rw [isBlank_of_symbol hm] at hb
      cases hb
    | inr lt => exact cut.symbol i d token lt hd hm
  word := cut.word
  apart := cut.apart

/-- A symbol, or a word that has come to its end, may stand before a cut. -/
lemma cons (hs : l.start = pos) (hlt : pos < l.stop) (hle : l.stop ≤ text.length)
    (hl : l.IsSymbol text ∨ l.IsWord text)
    (ends : l.IsWord text → ∀ c, text[l.stop]? = some c → endsWord c = true)
    (cut : Cuts text l.stop ls) : Cuts text pos (l :: ls) := by
  subst hs
  constructor
  · exact List.forall_mem_cons.2 ⟨hlt, cut.start_lt_stop⟩
  · exact List.pairwise_cons.2 ⟨cut.le_start, cut.ordered⟩
  · exact List.forall_mem_cons.2
      ⟨Nat.le_refl _, fun m hm => (Nat.le_of_lt hlt).trans (cut.le_start m hm)⟩
  · exact List.forall_mem_cons.2 ⟨hle, cut.stop_le⟩
  · intro i c hi hc out
    obtain ⟨out, rest⟩ := List.forall_mem_cons.1 out
    exact cut.blank i c (Nat.le_of_not_lt fun lt => out ⟨hi, lt⟩) hc rest
  · intro i c token hi hc hm
    by_cases lt : i < l.stop
    · -- A symbol inside a lexeme is that lexeme.
      cases hl with
      | inl sy =>
        obtain ⟨d, hd, hm', es⟩ := sy
        obtain rfl : i = l.start := by omega
        cases hc.symm.trans hd
        cases (symbol?_eq_some_iff.2 hm).symm.trans (symbol?_eq_some_iff.2 hm')
        rw [← es]
        exact List.mem_cons_self
      | inr w =>
        have he := w.endsWord_eq_false hi lt hc
        rw [endsWord_of_symbol hm] at he
        cases he
    · exact List.mem_cons_of_mem l (cut.symbol i c token (Nat.le_of_not_lt lt) hc hm)
  · exact List.forall_mem_cons.2 ⟨fun hn => hl.resolve_left hn, cut.word⟩
  · intro a ha b hb wa wb e
    -- A word that has ended is followed by a character that begins no word.
    have lt : ∀ m ∈ l :: ls, m.start < m.stop := List.forall_mem_cons.2 ⟨hlt, cut.start_lt_stop⟩
    have hla := lt a ha
    have hlb := lt b hb
    rcases List.mem_cons.1 ha with rfl | ha' <;> rcases List.mem_cons.1 hb with rfl | hb'
    · omega
    · obtain ⟨c, hc⟩ := cut.exists_get hb' hlb
      have he := wb.endsWord_eq_false (Nat.le_refl _) hlb hc
      rw [ends wa c (e ▸ hc)] at he
      cases he
    · have := cut.le_start a ha'
      omega
    · exact cut.apart a ha' b hb' wa wb e

end Token.Cuts

namespace Token

open Lexeme

/-- The lexemes of the rest of a text are a cut from there on. -/
lemma cuts_scanFrom {text : List Char} {pos cs} (e : text.drop pos = cs) :
    Cuts text pos (scanFrom pos cs) := by
  fun_induction scanFrom pos cs with
  | case1 pos => exact .nil (List.drop_eq_nil_iff.1 e)
  | case2 pos c rest hb ih =>
    have hc : text[pos]? = some c := by rw [← List.head?_drop, e, List.head?_cons]
    refine .skip hc hb (ih ?_)
    rw [← List.drop_drop, e, List.drop_one, List.tail_cons]
  | case3 pos c rest hb token hs ih =>
    have hc : text[pos]? = some c := by rw [← List.head?_drop, e, List.head?_cons]
    have hm := symbol?_eq_some_iff.1 hs
    obtain ⟨lt, -⟩ := List.getElem?_eq_some_iff.1 hc
    refine .cons rfl (Nat.lt_succ_self pos) lt (.inl ⟨c, hc, hm, rfl⟩) (fun w => ?_) (ih ?_)
    · have he := w.endsWord_eq_false (Nat.le_refl _) (Nat.lt_succ_self pos) hc
      rw [endsWord_of_symbol hm] at he
      cases he
    · rw [← List.drop_drop, e, List.drop_one, List.tail_cons]
  | case4 pos c rest hb hs tail stop ih =>
    have split : text.drop pos = (c :: tail) ++ rest.dropWhile (fun d => !endsWord d) := by
      rw [e, List.cons_append, List.takeWhile_append_dropWhile]
    have es : stop = pos + (c :: tail).length := by
      rw [List.length_cons, Nat.add_comm tail.length, ← Nat.add_assoc]
    have rest_eq : text.drop stop = rest.dropWhile (fun d => !endsWord d) := by
      rw [es, ← List.drop_drop, split, List.drop_left]
    have chars_eq : (text.drop pos).take (stop - pos) = c :: tail := by
      rw [es, Nat.add_sub_cancel_left, split, List.take_left]
    have lt : pos < stop := by
      rw [es]
      exact Nat.lt_add_of_pos_right (Nat.succ_pos tail.length)
    have hle : stop ≤ text.length := by
      have := congrArg List.length split
      rw [List.length_drop, List.length_append] at this
      omega
    refine .cons rfl lt hle (.inr (isWord_iff.2 ⟨?_, ?_⟩)) (fun _ d hd => ?_) (ih rest_eq)
    · intro d hd
      rw [chars, chars_eq] at hd
      cases List.mem_cons.1 hd with
      | inl ed =>
        rw [ed, endsWord, hs]
        simpa using hb
      | inr hd => simpa using List.mem_takeWhile_imp hd
    · rw [chars, chars_eq]
    · -- What stands behind the word is the first character that ends a word.
      rw [← List.head?_drop, rest_eq] at hd
      have hn := List.head?_dropWhile_not (fun d => !endsWord d) rest
      rw [hd] at hn
      simpa using hn

end Token

/-! ### The lexer finds the same tokens -/

namespace Lexer

open Token (symbol? endsWord ofWord scan scanFrom)

lemma skipBlanks_blank {pos c rest} (hb : isBlank c = true) :
    skipBlanks pos (c :: rest) = skipBlanks (pos + 1) rest := by
  rw [skipBlanks, skipBlanks, List.takeWhile_cons_of_pos hb, List.dropWhile_cons_of_pos hb,
    List.length_cons, Nat.add_comm _ 1, ← Nat.add_assoc]

lemma skipBlanks_of_not_blank {pos c rest} (hb : ¬ isBlank c = true) :
    skipBlanks pos (c :: rest) = (pos, c :: rest) := by
  rw [skipBlanks, List.takeWhile_cons_of_neg hb, List.dropWhile_cons_of_neg hb, List.length_nil,
    Nat.add_zero]

/-- Trying one symbol after the other is looking the character up. -/
lemma symbol_cons (pos c rest) :
    symbol pos (c :: rest) = (symbol? c).map fun token => (token, pos + 1, rest) := by
  simp only [symbol, just, symbol?]
  split_ifs <;> simp_all

/-- A symbol is read as its token. -/
lemma token_of_symbol {pos c rest token} (hs : symbol? c = some token) :
    Lexer.token pos (c :: rest) = some (token, pos + 1, rest) := by
  rw [Lexer.token, symbol_cons, hs, Option.map_some, Option.some_or]

/-- A word is read up to the character that ends it. -/
lemma token_of_word {pos c rest} (hb : ¬ isBlank c = true) (hs : symbol? c = none) :
    let tail := rest.takeWhile fun d => !endsWord d
    Lexer.token pos (c :: rest) = some (ofWord (String.ofList (c :: tail)),
      pos + 1 + tail.length, rest.dropWhile fun d => !endsWord d) := by
  intro tail
  have he : (!endsWord c) = true := by
    rw [endsWord, hs, Option.isSome_none, Bool.or_false, Bool.not_eq_true']
    exact Bool.eq_false_iff.2 hb
  have drop_eq : (c :: rest).drop (tail.length + 1) = rest.dropWhile fun d => !endsWord d := by
    conv_lhs => rw [← List.takeWhile_append_dropWhile (p := fun d => !endsWord d) (l := rest)]
    rw [List.drop_succ_cons, List.drop_left]
  rw [Lexer.token, symbol_cons, hs, Option.map_none, Option.none_or, word,
    List.takeWhile_cons_of_pos (p := fun d => !endsWord d) he]
  simp only [drop_eq, tail, Nat.add_assoc, Nat.add_comm 1]

/-- Reading a token and then the others. -/
lemma repeated_of_token {count pos cs token stop rest ls final} (hp : skipBlanks pos cs = (pos, cs))
    (ht : Lexer.token pos cs = some (token, stop, rest))
    (hr : repeated (padded (spanned Lexer.token)) count (skipBlanks stop rest).1
      (skipBlanks stop rest).2 = (ls, final)) :
    repeated (padded (spanned Lexer.token)) (count + 1) pos cs =
      (⟨token, pos, stop⟩ :: ls, final) := by
  have item : padded (spanned Lexer.token) pos cs =
      some (⟨token, pos, stop⟩, skipBlanks stop rest) := by
    rw [padded, hp]
    simp only [spanned, ht, Option.map_some]
  rw [repeated, item]
  simp only [hr]

/-- Reading token after token is scanning. -/
lemma repeated_eq_scanFrom (pos cs) : ∀ count, (skipBlanks pos cs).2.length ≤ count →
    repeated (padded (spanned Lexer.token)) count (skipBlanks pos cs).1 (skipBlanks pos cs).2 =
      (scanFrom pos cs, pos + cs.length, []) := by
  fun_induction scanFrom pos cs with
  | case1 pos =>
    intro count _
    cases count <;> rfl
  | case2 pos c rest hb ih =>
    intro count le
    rw [skipBlanks_blank hb] at le ⊢
    rw [ih count le, List.length_cons, Nat.add_assoc, Nat.add_comm 1]
  | case3 pos c rest hb token hs ih =>
    intro count le
    rw [skipBlanks_of_not_blank hb] at le ⊢
    obtain ⟨count, rfl⟩ := Nat.exists_eq_add_one.2 (Nat.lt_of_lt_of_le (Nat.succ_pos _) le)
    have short := (List.dropWhile_suffix isBlank (l := rest)).length_le
    rw [repeated_of_token (skipBlanks_of_not_blank hb) (token_of_symbol hs)
      (ih count (short.trans (Nat.le_of_succ_le_succ le))), List.length_cons, Nat.add_assoc,
      Nat.add_comm 1]
  | case4 pos c rest hb hs tail stop ih =>
    intro count le
    rw [skipBlanks_of_not_blank hb] at le ⊢
    obtain ⟨count, rfl⟩ := Nat.exists_eq_add_one.2 (Nat.lt_of_lt_of_le (Nat.succ_pos _) le)
    have lengths : tail.length + (rest.dropWhile fun d => !endsWord d).length = rest.length := by
      rw [← List.length_append, List.takeWhile_append_dropWhile]
    have short := (List.dropWhile_suffix isBlank
      (l := rest.dropWhile fun d => !endsWord d)).length_le
    have le' : (skipBlanks stop (rest.dropWhile fun d => !endsWord d)).2.length ≤ count :=
      short.trans (Nat.le_trans (lengths ▸ Nat.le_add_left _ _) (Nat.le_of_succ_le_succ le))
    rw [repeated_of_token (skipBlanks_of_not_blank hb) (token_of_word hb hs) (ih count le'),
      List.length_cons, ← lengths]
    simp only [stop, tail, Nat.add_assoc, Nat.add_comm 1]

/-- The lexer succeeds with what the scan finds. -/
lemma lex_eq_some (source : String) : lex source = some (scan source) := by
  simp only [lex, repeated_eq_scanFrom 0 source.toList _ (Nat.le_refl _)]
  rfl

end Lexer

/-- There is one way to cut a text into tokens, and both the lexer and the scan find it. -/
theorem Token.cuts_iff_eq_scan (source : String) :
    Lexer.lex source = some (scan source) ∧
      ∀ ls, Cuts source.toList 0 ls ↔ ls = scan source := by
  have cut : Cuts source.toList 0 (scan source) := cuts_scanFrom List.drop_zero
  exact ⟨Lexer.lex_eq_some source, fun ls => ⟨fun cut' => cut'.unique cut, fun e => e ▸ cut⟩⟩

end WeakHead

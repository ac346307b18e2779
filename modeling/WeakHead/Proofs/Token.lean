import Mathlib.Data.List.TakeWhile
import Mathlib.Tactic.Common
import WeakHead.Token

/-!
# Tokens of a text

What is written one after another is read one after another, if words do not run together. `Lexable`
says of a name that it is read as one identifier; every identifier that is read has such a name.
-/

namespace WeakHead

open Text (isBlank)

namespace Token

/-- The tokens of a text, without their positions. -/
def ofChars (cs : List Char) : List Token :=
  (scanFrom 0 cs).map Lexeme.token

/-- The tokens of a source, without their positions. -/
def ofSource (source : String) : List Token :=
  ofChars source.toList

/-- Positions do not count for the tokens. -/
lemma map_token_scanFrom (pos cs) : (scanFrom pos cs).map Lexeme.token = ofChars cs := by
  -- From any two positions the tokens are the same.
  suffices h : ∀ pos', (scanFrom pos cs).map Lexeme.token = (scanFrom pos' cs).map Lexeme.token from
    h 0
  fun_induction scanFrom pos cs with
  | case1 pos => simp [scanFrom]
  | case2 pos c rest hb ih =>
    intro pos'
    rw [ih (pos' + 1), scanFrom.eq_2 pos', if_pos hb]
  | case3 pos c rest hb token hs ih =>
    intro pos'
    rw [scanFrom.eq_2 pos', if_neg hb, hs, List.map_cons, List.map_cons, ih (pos' + 1)]
  | case4 pos c rest hb hs tail stop ih =>
    intro pos'
    rw [scanFrom.eq_2 pos', if_neg hb, hs, List.map_cons, List.map_cons,
      ih (pos' + 1 + tail.length)]

@[simp] lemma ofChars_nil : ofChars [] = [] := by
  rw [ofChars, scanFrom, List.map_nil]

lemma ofChars_blank {c} (hb : isBlank c) (rest) : ofChars (c :: rest) = ofChars rest := by
  rw [ofChars, scanFrom, if_pos hb, map_token_scanFrom]

lemma ofChars_symbol {c token} (hb : isBlank c = false) (hs : symbol? c = some token) (rest) :
    ofChars (c :: rest) = token :: ofChars rest := by
  rw [ofChars, scanFrom, if_neg (by rw [hb]; decide), hs, List.map_cons, map_token_scanFrom]

/-- The text is empty or starts with a character that ends the word before it. -/
def StopsWord (cs : List Char) : Prop :=
  ∀ c ∈ cs.head?, endsWord c

/-- A text that starts with such a character stops the word before it. -/
lemma stopsWord_cons {c cs} (hc : endsWord c) : StopsWord (c :: cs) := by
  rintro _ ⟨⟩
  exact hc

/-- The longest run of characters that end no word is a token. -/
lemma ofChars_word {word rest : List Char} (hne : word ≠ []) (hw : ∀ c ∈ word, endsWord c = false)
    (hr : StopsWord rest) :
    ofChars (word ++ rest) = ofWord (String.ofList word) :: ofChars rest := by
  obtain ⟨c, tail, rfl⟩ := List.exists_cons_of_ne_nil hne
  obtain ⟨hc, ht⟩ := List.forall_mem_cons.1 hw
  have hb : isBlank c = false ∧ symbol? c = none := by
    simpa [endsWord] using hc
  have hrest : rest.takeWhile (fun d => !endsWord d) = [] ∧
      rest.dropWhile (fun d => !endsWord d) = rest := by
    cases rest with
    | nil => exact ⟨rfl, rfl⟩
    | cons d rest =>
      have hd : endsWord d = true := hr d rfl
      simp [hd]
  have ht' : ∀ d ∈ tail, (!endsWord d) = true := fun d hd => by rw [ht d hd]; rfl
  rw [List.cons_append, ofChars, scanFrom, if_neg (by rw [hb.1]; decide), hb.2]
  simp only [List.map_cons, map_token_scanFrom, List.takeWhile_append_of_pos ht',
    List.dropWhile_append_of_pos ht', hrest, List.append_nil]

end Token

/-- A name that is read as one identifier: it is not empty, no character in it ends a word, and it
is not reserved. -/
structure Lexable (name : String) : Prop where
  ne_nil : name.toList ≠ []
  inside : ∀ c ∈ name.toList, Token.endsWord c = false
  ofWord_eq : Token.ofWord name = .ident name

/-- A test for names that can be read. -/
lemma lexable_iff {name} :
    name.toList ≠ [] ∧ name.toList.all (fun c => !Token.endsWord c) = true ∧
      Token.ofWord name = .ident name ↔ Lexable name := by
  simp only [List.all_eq_true, Bool.not_eq_true']
  exact ⟨fun ⟨ne, inside, e⟩ => ⟨ne, inside, e⟩, fun ⟨ne, inside, e⟩ => ⟨ne, inside, e⟩⟩

instance (name : String) : Decidable (Lexable name) :=
  decidable_of_iff _ lexable_iff

/-- A name that can be read is read as its identifier. -/
lemma Lexable.ofChars {name} (lx : Lexable name) {rest} (hr : Token.StopsWord rest) :
    Token.ofChars (name.toList ++ rest) = .ident name :: Token.ofChars rest := by
  rw [Token.ofChars_word lx.ne_nil lx.inside hr, String.ofList_toList, lx.ofWord_eq]

lemma Lexable.ofChars_alone {name} (lx : Lexable name) :
    Token.ofChars name.toList = [.ident name] := by
  have e := @Lexable.ofChars name lx [] nofun
  rwa [List.append_nil, Token.ofChars_nil] at e

/-- A word that is read as an identifier is read under its own name. -/
lemma Token.eq_of_ofWord {word name} (e : ofWord word = .ident name) : word = name := by
  unfold ofWord at e
  split_ifs at e
  cases e
  rfl

lemma Token.ofWord_eq_ident_iff {word} :
    ofWord word = .ident word ↔ word ∉ ["let", "in", "="] := by
  simp only [ofWord, List.mem_cons, List.not_mem_nil, or_false, not_or]
  split_ifs <;> simp_all

lemma Token.endsWord_iff {c} : endsWord c ↔ isBlank c ∨ c ∈ ['(', ')', '.', 'λ', '\\'] := by
  simp only [endsWord, symbol?, Bool.or_eq_true, List.mem_cons, List.not_mem_nil, or_false]
  split_ifs <;> simp_all

/-- What makes a name readable, character by character. -/
lemma lexable_iff_forall {name} :
    Lexable name ↔ name ≠ "" ∧
      (∀ c ∈ name.toList, isBlank c = false ∧ c ∉ ['(', ')', '.', 'λ', '\\']) ∧
      name ∉ ["let", "in", "="] := by
  have ne : name.toList ≠ [] ↔ name ≠ "" := not_congr String.toList_eq_nil_iff
  have inside : ∀ c, Token.endsWord c = false ↔
      isBlank c = false ∧ c ∉ ['(', ')', '.', 'λ', '\\'] := fun c => by
    rw [← Bool.not_eq_true, Token.endsWord_iff, not_or, Bool.not_eq_true]
  simp only [← ne, ← inside, ← Token.ofWord_eq_ident_iff]
  exact ⟨fun lx => ⟨lx.ne_nil, lx.inside, lx.ofWord_eq⟩, fun ⟨ne, inside, e⟩ => ⟨ne, inside, e⟩⟩

/-- No symbol is an identifier. -/
lemma Token.symbol?_ne_ident (c name) : symbol? c ≠ some (.ident name) := by
  unfold symbol?
  split_ifs <;> simp

/-- Every identifier of a text has a name that can be read. -/
lemma lexable_of_ident_mem {cs name} (hm : Token.ident name ∈ Token.ofChars cs) :
    Lexable name := by
  rw [Token.ofChars] at hm
  generalize 0 = pos at hm
  fun_induction Token.scanFrom pos cs with
  | case1 pos => simp at hm
  | case2 pos c rest hb ih => exact ih hm
  | case3 pos c rest hb token hs ih =>
    cases List.mem_cons.1 hm with
    | inl e => exact absurd (e ▸ hs) (Token.symbol?_ne_ident c name)
    | inr hm => exact ih hm
  | case4 pos c rest hb hs tail stop ih =>
    cases List.mem_cons.1 hm with
    | inl e =>
      cases Token.eq_of_ofWord e.symm
      have hc : Token.endsWord c = false := by simp [Token.endsWord, hb, hs]
      refine ⟨by simp, fun d hd => ?_, e.symm⟩
      rw [String.toList_ofList] at hd
      cases List.mem_cons.1 hd with
      | inl e => exact e ▸ hc
      | inr hd => simpa using List.mem_takeWhile_imp hd
    | inr hm => exact ih hm

end WeakHead

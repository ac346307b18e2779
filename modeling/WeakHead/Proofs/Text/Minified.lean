import Mathlib.Tactic.Common
import WeakHead.Text.Minified

/-!
# Which blanks are left

Minifying looks back at the last character that it has written. So what it writes is told behind
what stands there already: `minifyAfter before.getLast? gap cs` comes behind `before`. There it puts
a blank only where two characters would run together, and where all blanks are of this kind it
leaves the text as it is.
-/

namespace WeakHead.Text

/-- A blank must be kept between two such characters. -/
def KeepsBlank (c : Char) : Prop :=
  isBlank c = false ∧ isParen c = false

/-- Each blank of the text is a space that stands between two characters which are neither blanks
nor parentheses. -/
def IsMinified (cs : List Char) : Prop :=
  ∀ before c after, cs = before ++ c :: after → isBlank c = true →
    c = ' ' ∧ (∃ b, before.getLast? = some b ∧ KeepsBlank b) ∧
      ∃ a, after.head? = some a ∧ KeepsBlank a

variable {before cs rest : List Char} {c : Char} {last : Option Char} {gap : Bool}

lemma minifyAfter_blank (hc : isBlank c = true) :
    minifyAfter last gap (c :: rest) = minifyAfter last true rest := by
  rw [minifyAfter, if_pos hc]

/-- A character with no blank before it is kept. -/
lemma minifyAfter_kept (hc : isBlank c = false) :
    minifyAfter last false (c :: rest) = c :: minifyAfter (some c) false rest := by
  rw [minifyAfter, hc]
  cases last <;> rfl

/-- Blanks between characters that need one are made one space. -/
lemma minifyAfter_spaced {b} (hb : isParen b = false) (kc : KeepsBlank c) :
    minifyAfter (some b) true (c :: rest) = ' ' :: c :: minifyAfter (some c) false rest := by
  rw [minifyAfter, kc.1]
  simp [hb, kc.2]

/-- What is written for a character that is no blank: the character, and a space before it if blanks
were passed over and neither it nor the last character is a parenthesis. -/
lemma minifyAfter_cases (hc : isBlank c = false) (last gap rest) :
    (minifyAfter last gap (c :: rest) = c :: minifyAfter (some c) false rest ∧
      (gap = true → isParen c = true ∨ ∀ b, last = some b → isParen b = true)) ∨
    gap = true ∧ isParen c = false ∧ (∃ b, last = some b ∧ isParen b = false) ∧
      minifyAfter last gap (c :: rest) = ' ' :: c :: minifyAfter (some c) false rest := by
  rw [minifyAfter, hc]
  cases last with
  | none => exact .inl ⟨rfl, fun _ => .inr nofun⟩
  | some b => cases gap <;> cases isParen c <;> cases hb : isParen b <;> simp [hb]

/-! ### The blanks that are written -/

namespace IsMinified

lemma nil : IsMinified [] := by
  intro before c after e
  simp at e

/-- More can be written behind a text if the blanks in it stand where they must. -/
lemma append {added : List Char} (mi : IsMinified before)
    (needed : ∀ pre c post, added = pre ++ c :: post → isBlank c = true →
      c = ' ' ∧ (∃ b, (before ++ pre).getLast? = some b ∧ KeepsBlank b) ∧
        ∃ a, post.head? = some a ∧ KeepsBlank a) : IsMinified (before ++ added) := by
  intro pre c post e hc
  rcases List.append_eq_append_iff.1 e with ⟨mid, rfl, ea⟩ | ⟨mid, rfl, ea⟩
  · exact needed mid c post ea hc
  · cases mid with
    | nil => simpa using needed [] c post ea.symm hc
    | cons d mid =>
      obtain ⟨rfl, rfl⟩ := List.cons.inj ea
      obtain ⟨es, hb, a, ha, ka⟩ := mi pre c mid rfl hc
      exact ⟨es, hb, a, by simp [ha], ka⟩

lemma concat (mi : IsMinified before) (hc : isBlank c = false) : IsMinified (before ++ [c]) := by
  refine mi.append fun pre d post e hd => ?_
  have hm : d ∈ [c] := e ▸ List.mem_append_right pre List.mem_cons_self
  rw [List.mem_singleton.1 hm, hc] at hd
  cases hd

/-- A space may be put behind it as well, between characters that need one. -/
lemma concat_space {b} (mi : IsMinified before) (hb : before.getLast? = some b)
    (kb : KeepsBlank b) (kc : KeepsBlank c) : IsMinified (before ++ [' ', c]) := by
  refine mi.append fun pre d post e hd => ?_
  cases pre with
  | nil =>
    cases e
    rw [List.append_nil]
    exact ⟨rfl, ⟨b, hb, kb⟩, c, rfl, kc⟩
  | cons x pre =>
    have hm : d ∈ [c] := (List.cons.inj e).2 ▸ List.mem_append_right pre List.mem_cons_self
    rw [List.mem_singleton.1 hm, kc.1] at hd
    cases hd

lemma isBlank_getLast {b} (mi : IsMinified before) (hb : before.getLast? = some b) :
    isBlank b = false := by
  obtain ⟨pre, rfl⟩ := List.getLast?_eq_some_iff.1 hb
  rw [← Bool.not_eq_true]
  intro hc
  obtain ⟨-, -, a, ha, -⟩ := mi pre b [] rfl hc
  cases ha

lemma minifyAfter (mi : IsMinified before) (gap cs) :
    IsMinified (before ++ minifyAfter before.getLast? gap cs) := by
  induction cs generalizing before gap with
  | nil => rwa [Text.minifyAfter, List.append_nil]
  | cons c rest ih =>
    cases hc : isBlank c with
    | true =>
      rw [minifyAfter_blank hc]
      exact ih mi true
    | false =>
      rcases minifyAfter_cases hc before.getLast? gap rest with
        ⟨e, -⟩ | ⟨-, hp, ⟨b, hb, hpb⟩, e⟩
      · have ih := ih (mi.concat hc) false
        rw [List.getLast?_concat, List.append_assoc] at ih
        rw [e]
        exact ih
      · have ih := ih (mi.concat_space hb ⟨mi.isBlank_getLast hb, hpb⟩ ⟨hc, hp⟩) false
        have last : (before ++ [' ', c]).getLast? = some c := by simp
        rw [last, List.append_assoc] at ih
        rw [e]
        exact ih

/-- A text whose blanks all have to be kept is left as it is. -/
lemma minifyAfter_eq (mi : IsMinified (before ++ cs)) :
    Text.minifyAfter before.getLast? false cs = cs := by
  induction cs generalizing before with
  | nil => rfl
  | cons c rest ih =>
    have ih := @ih (before ++ [c]) (by rwa [List.append_assoc])
    rw [List.getLast?_concat] at ih
    cases hc : isBlank c with
    | false => rw [minifyAfter_kept hc, ih]
    | true =>
      -- This blank is a space between characters that need one, and minifying writes it again.
      obtain ⟨rfl, ⟨b, hb, kb⟩, a, ha, ka⟩ := mi before c rest rfl hc
      obtain ⟨rest, rfl⟩ := List.head?_eq_some_iff.1 ha
      rw [minifyAfter_kept ka.1] at ih
      rw [minifyAfter_blank hc, hb, minifyAfter_spaced kb.2 ka, ih]

end IsMinified

/-- What has been minified is minified. -/
lemma isMinified_minify (text : String) : IsMinified (minify text).toList := by
  rw [minify, String.toList_ofList]
  exact IsMinified.nil.minifyAfter false text.toList

/-- Minifying twice is minifying once. -/
lemma minify_minify (text : String) : minify (minify text) = minify text := by
  have mi := isMinified_minify text
  rw [← List.nil_append (minify text).toList] at mi
  rw [minify, ← List.getLast?_nil, mi.minifyAfter_eq, String.ofList_toList]

end WeakHead.Text

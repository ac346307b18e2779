import Mathlib.Data.List.Forall2
import WeakHead.Term.Reader

/-!
# Which blank stands where

For the tokens of a text, where they stand, and what is read from them it does not matter which
blank stands where there is one (`Token.scanFrom_eq`). So a line feed is as good as a space.
-/

namespace WeakHead

open Text (isBlank)

variable {cs ds : List Char}

namespace Text

/-- The texts are the same, but where one has a blank the other may have a different one. -/
def SameButBlanks (cs ds : List Char) : Prop :=
  List.Forall₂ (fun c d => c = d ∨ isBlank c = true ∧ isBlank d = true) cs ds

/-- What is dropped from the front of related texts by a test that respects the relation leaves
related texts. -/
lemma forall₂_dropWhile {R : Char → Char → Prop} {p : Char → Bool}
    (hp : ∀ c d, R c d → p c = p d) (h : List.Forall₂ R cs ds) :
    List.Forall₂ R (cs.dropWhile p) (ds.dropWhile p) := by
  induction h with
  | nil => exact .nil
  | @cons c d cs ds hc h ih =>
    rw [List.dropWhile_cons, List.dropWhile_cons, ← hp c d hc]
    cases p c with
    | true => exact ih
    | false => exact .cons hc h

namespace SameButBlanks

lemma isBlank_eq {c d} (h : c = d ∨ isBlank c = true ∧ isBlank d = true) :
    isBlank c = isBlank d := by
  obtain rfl | ⟨hc, hd⟩ := h
  · rfl
  · rw [hc, hd]

lemma refl (cs : List Char) : SameButBlanks cs cs :=
  List.forall₂_same.2 fun _ _ => .inl rfl

/-- The first character is the same, or it is blank in both. -/
lemma cons_inv {c} (sb : SameButBlanks (c :: cs) ds) :
    ∃ d ds', (c = d ∨ isBlank c = true ∧ isBlank d = true) ∧ SameButBlanks cs ds' ∧
      ds = d :: ds' :=
  List.forall₂_cons_left_iff.1 sb

lemma allBlank_eq (sb : SameButBlanks cs ds) : allBlank cs = allBlank ds := by
  induction sb with
  | nil => rfl
  | cons h _ ih =>
    rw [allBlank, allBlank] at ih
    rw [allBlank, allBlank, List.all_cons, List.all_cons, isBlank_eq h, ih]

/-- Up to the first blank the texts are the same. -/
lemma takeWhile_eq {p : Char → Bool} (hp : ∀ c, isBlank c = true → p c = false)
    (sb : SameButBlanks cs ds) : cs.takeWhile p = ds.takeWhile p := by
  induction sb with
  | nil => rfl
  | cons h _ ih =>
    rw [List.takeWhile_cons, List.takeWhile_cons]
    obtain rfl | ⟨hc, hd⟩ := h
    · rw [ih]
    · rw [hp _ hc, hp _ hd]
      rfl

/-- What is dropped up to the first blank leaves such texts again. -/
lemma dropWhile {p : Char → Bool} (hp : ∀ c, isBlank c = true → p c = false)
    (sb : SameButBlanks cs ds) : SameButBlanks (cs.dropWhile p) (ds.dropWhile p) := by
  refine forall₂_dropWhile (fun c d h => ?_) sb
  obtain rfl | ⟨hc, hd⟩ := h
  · rfl
  · rw [hp c hc, hp d hd]

end SameButBlanks

end Text

open Text (SameButBlanks)

/-- Texts that are the same but for their blanks have the same tokens, at the same places. -/
lemma Token.scanFrom_eq (pos) (sb : SameButBlanks cs ds) : scanFrom pos ds = scanFrom pos cs := by
  -- A blank is met by a blank, so both scans are in the same case all the time.
  induction pos, cs using scanFrom.induct generalizing ds with
  | case1 pos =>
    cases sb
    rfl
  | case2 pos c rest hb ih =>
    obtain ⟨d, ds, h, sr, rfl⟩ := sb.cons_inv
    have hd : isBlank d = true := SameButBlanks.isBlank_eq h ▸ hb
    rw [scanFrom, if_pos hd, scanFrom, if_pos hb, ih sr]
  | case3 pos c rest hb token hs ih =>
    obtain ⟨d, ds, h, sr, rfl⟩ := sb.cons_inv
    obtain rfl | ⟨hc, -⟩ := h
    · rw [scanFrom, if_neg hb, hs, scanFrom, if_neg hb, hs, ih sr]
    · exact absurd hc hb
  | case4 pos c rest hb hs tail stop =>
    rename_i ih
    obtain ⟨d, ds, h, sr, rfl⟩ := sb.cons_inv
    obtain rfl | ⟨hc, -⟩ := h
    · have ends : ∀ c, isBlank c = true → (!endsWord c) = false := fun c hc => by
        simp [endsWord, hc]
      rw [scanFrom, if_neg hb, hs, scanFrom, if_neg hb, hs]
      simp only [← sr.takeWhile_eq ends]
      rw [ih (sr.dropWhile ends)]
    · exact absurd hc hb

variable {source source' : String}

lemma Token.scan_eq (sb : SameButBlanks source.toList source'.toList) :
    scan source' = scan source :=
  scanFrom_eq 0 sb

/-- The end of the input, which errors may name, is at the same place too. -/
lemma Term.parse_eq (sb : SameButBlanks source.toList source'.toList) :
    parse source' = parse source := by
  have length : source'.length = source.length := by
    rw [← String.length_toList, ← String.length_toList, sb.length_eq]
  rw [parse, Token.scan_eq sb, length, parse]

end WeakHead

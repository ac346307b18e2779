import Mathlib.Tactic.Common
import WeakHead.IndexTerm

/-!
# Occurrences of indices

An index occurs in a term under the binders that are crossed on the way to it. An index that is
smaller than their number is bound; any other refers to a free slot, which is what remains of it
after the binders were taken off. Raising moves free slots, contraction takes one away and brings in
those of the argument, and so a head step never refers to a free slot that was not referred to
before.
-/

namespace WeakHead.IndexTerm

/-- Somewhere in the term, under this many binders, stands this index. -/
inductive Occurs : IndexTerm → Nat → Nat → Prop where
  | idx (index : Nat) : Occurs (idx index) 0 index
  | lam {body n k} : Occurs body n k → Occurs (lam body) (n + 1) k
  | fn {fn arg n k} : Occurs fn n k → Occurs (app fn arg) n k
  | arg {fn arg n k} : Occurs arg n k → Occurs (app fn arg) n k

/-- Some index of the term refers to this free slot. -/
def FreeSlot (t : IndexTerm) (s : Nat) : Prop :=
  ∃ n, t.Occurs n (n + s)

@[simp] lemma occurs_idx_iff {index n k} : (idx index).Occurs n k ↔ n = 0 ∧ k = index := by
  constructor
  · intro h
    cases h
    exact ⟨rfl, rfl⟩
  · rintro ⟨rfl, rfl⟩
    exact .idx k

/-- A variable in an abstraction is one of its body, under one binder more. -/
@[simp] lemma occurs_lam_iff {body n k} :
    (lam body).Occurs n k ↔ ∃ m, n = m + 1 ∧ body.Occurs m k := by
  constructor
  · intro h
    cases h with
    | lam h => exact ⟨_, rfl, h⟩
  · rintro ⟨m, rfl, h⟩
    exact .lam h

@[simp] lemma occurs_app_iff {fn arg n k} :
    (app fn arg).Occurs n k ↔ fn.Occurs n k ∨ arg.Occurs n k := by
  constructor
  · intro h
    cases h with
    | fn h => exact .inl h
    | arg h => exact .inr h
  · rintro (h | h)
    · exact .fn h
    · exact .arg h

/-- Every binder that an index occurs under is a node of the term, and so is the variable. -/
lemma Occurs.lt_size {t n k} (h : Occurs t n k) : n < t.size := by
  induction h with
  | idx index => exact Nat.one_pos
  | lam _ ih => exact Nat.succ_lt_succ ih
  | fn _ ih =>
    rw [size]
    omega
  | arg _ ih =>
    rw [size]
    omega

/-- Raising moves the indices that point past the cutoff, and leaves them in their places. -/
lemma occurs_raise_iff {t amount cutoff n k} :
    (raise amount cutoff t).Occurs n k ↔
      ∃ i, t.Occurs n i ∧ k = if i < n + cutoff then i else i + amount := by
  induction t generalizing cutoff n with
  | idx index =>
    simp only [raise, occurs_idx_iff]
    constructor
    · rintro ⟨rfl, rfl⟩
      exact ⟨index, ⟨rfl, rfl⟩, by rw [Nat.zero_add]⟩
    · rintro ⟨i, ⟨rfl, rfl⟩, rfl⟩
      exact ⟨rfl, by rw [Nat.zero_add]⟩
  | lam body ih =>
    simp only [raise, occurs_lam_iff, ih]
    constructor
    · rintro ⟨m, rfl, i, hi, rfl⟩
      exact ⟨i, ⟨m, rfl, hi⟩, by rw [Nat.add_assoc, Nat.add_comm 1]⟩
    · rintro ⟨i, ⟨m, rfl, hi⟩, rfl⟩
      exact ⟨m, rfl, i, hi, by rw [Nat.add_assoc, Nat.add_comm 1]⟩
  | app fn arg ihf iha =>
    simp only [raise, occurs_app_iff, ihf, iha]
    constructor
    · rintro (⟨i, hi, e⟩ | ⟨i, hi, e⟩)
      · exact ⟨i, .inl hi, e⟩
      · exact ⟨i, .inr hi, e⟩
    · rintro ⟨i, hi | hi, e⟩
      · exact .inl ⟨i, hi, e⟩
      · exact .inr ⟨i, hi, e⟩

/-- All indices stay below a bound past their binders if all free slots are below it. -/
lemma forall_freeSlot_lt_iff {t : IndexTerm} {count} :
    (∀ s, t.FreeSlot s → s < count) ↔ ∀ n k, t.Occurs n k → k < n + count := by
  constructor
  · intro h n k ho
    by_cases hk : k < n
    · omega
    · have lt := h (k - n) ⟨n, by rwa [show n + (k - n) = k by omega]⟩
      omega
  · rintro h s ⟨n, ho⟩
    have lt := h n (n + s) ho
    omega

@[simp] lemma freeSlot_idx_iff {index s} : (idx index).FreeSlot s ↔ s = index := by
  constructor
  · rintro ⟨n, h⟩
    obtain ⟨rfl, e⟩ := occurs_idx_iff.1 h
    rw [← e, Nat.zero_add]
  · rintro rfl
    refine ⟨0, ?_⟩
    rw [Nat.zero_add]
    exact .idx s

@[simp] lemma freeSlot_lam_iff {body s} : (lam body).FreeSlot s ↔ body.FreeSlot (s + 1) := by
  constructor
  · rintro ⟨n, h⟩
    obtain ⟨m, rfl, h⟩ := occurs_lam_iff.1 h
    refine ⟨m, ?_⟩
    rwa [Nat.add_comm s 1, ← Nat.add_assoc]
  · rintro ⟨m, h⟩
    refine ⟨m + 1, ?_⟩
    rw [Nat.add_assoc, Nat.add_comm 1 s]
    exact .lam h

@[simp] lemma freeSlot_app_iff {fn arg s} :
    (app fn arg).FreeSlot s ↔ fn.FreeSlot s ∨ arg.FreeSlot s := by
  simp only [FreeSlot, occurs_app_iff, exists_or]

/-- Raising over the innermost binders moves all free slots. -/
lemma freeSlot_raise {t amount cutoff s} (h : (raise amount cutoff t).FreeSlot s) :
    (s < cutoff ∧ t.FreeSlot s) ∨ (cutoff + amount ≤ s ∧ t.FreeSlot (s - amount)) := by
  obtain ⟨n, ho⟩ := h
  obtain ⟨i, hi, e⟩ := occurs_raise_iff.1 ho
  by_cases hc : i < n + cutoff
  · rw [if_pos hc] at e
    refine .inl ⟨by omega, n, ?_⟩
    rwa [e]
  · rw [if_neg hc] at e
    refine .inr ⟨by omega, n, ?_⟩
    rwa [show n + (s - amount) = i by omega]

/-- What is put in for a variable brings its own free slots; the others drop by the binder that is
gone. -/
lemma freeSlot_instantiate {level arg body s} (h : (instantiate level arg body).FreeSlot s) :
    (s < level ∧ body.FreeSlot s) ∨ (level ≤ s ∧ body.FreeSlot (s + 1)) ∨
      (level ≤ s ∧ arg.FreeSlot (s - level)) := by
  induction body generalizing level s with
  | idx index =>
    unfold instantiate at h
    split at h
    · rw [freeSlot_idx_iff] at h
      exact .inl ⟨by omega, by rwa [freeSlot_idx_iff]⟩
    · split at h
      · -- The variable itself: every free slot of what is put in was raised over the level.
        cases freeSlot_raise h with
        | inl h => exact absurd h.1 (Nat.not_lt_zero s)
        | inr h => exact .inr (.inr ⟨by omega, h.2⟩)
      · rw [freeSlot_idx_iff] at h
        exact .inr (.inl ⟨by omega, by rw [freeSlot_idx_iff]; omega⟩)
  | lam body ih =>
    simp only [instantiate, freeSlot_lam_iff] at h ⊢
    rcases ih h with ⟨hs, hb⟩ | ⟨hs, hb⟩ | ⟨hs, ha⟩
    · exact .inl ⟨by omega, hb⟩
    · exact .inr (.inl ⟨by omega, hb⟩)
    · refine .inr (.inr ⟨by omega, ?_⟩)
      rwa [Nat.add_sub_add_right] at ha
  | app fn other ihf iha =>
    simp only [instantiate, freeSlot_app_iff] at h ⊢
    rcases h with h | h
    · rcases ihf h with h | h | h <;> simp [h]
    · rcases iha h with h | h | h <;> simp [h]

/-- A head step refers to no free slot that was not referred to before. -/
lemma FreeSlot.of_headStep {t u : IndexTerm} {s} (e : t.headStep? = some u) (h : u.FreeSlot s) :
    t.FreeSlot s := by
  fun_induction headStep? t generalizing u with
  | case1 body arg =>
    cases e
    rcases freeSlot_instantiate h with ⟨hs, -⟩ | ⟨-, hb⟩ | ⟨-, ha⟩
    · exact absurd hs (Nat.not_lt_zero s)
    · simp [hb]
    · simp only [Nat.sub_zero] at ha
      simp [ha]
  | case2 fn arg _ ih =>
    obtain ⟨fn', efn, rfl⟩ := Option.map_eq_some_iff.1 e
    rw [freeSlot_app_iff] at h ⊢
    exact h.imp_left (ih efn)
  | case3 => cases e

end WeakHead.IndexTerm

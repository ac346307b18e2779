import Mathlib.Data.List.Nodup
import WeakHead.Proofs.BinderNames
import WeakHead.Proofs.Heap.Readback
import WeakHead.Proofs.Term.Printing

/-!
# What a readback stands for

The binders of a readback have different names, and none of them is the name of a free variable. So
every name leads back to the index that it was given for: nothing is captured, and the readback of a
term stands for that term.
-/

namespace WeakHead

open BinderNames

namespace IndexTerm

/-- The names of the binders around, innermost first. -/
def bindersAround (binder : Nat → String) (depth : Nat) : List String :=
  ((List.range depth).map binder).reverse

lemma bindersAround_succ (binder : Nat → String) (depth) :
    bindersAround binder (depth + 1) = binder depth :: bindersAround binder depth := by
  rw [bindersAround, bindersAround, List.range_succ, List.map_append, List.reverse_append]
  rfl

@[simp] lemma length_bindersAround (binder : Nat → String) (depth) :
    (bindersAround binder depth).length = depth := by
  rw [bindersAround, List.length_reverse, List.length_map, List.length_range]

section

variable {binder free : Nat → String} {names : List String}

/-- The names of binders and free variables together do not repeat. -/
lemma nodup_bindersAround_append (inj : Function.Injective binder) (apart : ∀ d, binder d ∉ names)
    (nodup : names.Nodup) (depth) : (bindersAround binder depth ++ names).Nodup := by
  refine List.nodup_append'.2 ⟨List.nodup_reverse.2 (List.nodup_range.map inj), nodup, ?_⟩
  intro x hx hm
  rw [bindersAround, List.mem_reverse, List.mem_map] at hx
  obtain ⟨d, -, rfl⟩ := hx
  exact apart d hm

/-- The name that a variable is given is found at its index. -/
lemma idxOf_name (inj : Function.Injective binder) (apart : ∀ d, binder d ∉ names)
    (nodup : names.Nodup) (ef : ∀ s name, names[s]? = some name → free s = name) {depth index}
    (hi : index < depth + names.length) :
    (bindersAround binder depth ++ names).idxOf
      (if index < depth then binder (depth - 1 - index) else free (index - depth)) = index := by
  have nd := nodup_bindersAround_append inj apart nodup depth
  have hl : index < (bindersAround binder depth ++ names).length := by
    rwa [List.length_append, length_bindersAround]
  have eg : (bindersAround binder depth ++ names)[index] =
      if index < depth then binder (depth - 1 - index) else free (index - depth) := by
    split
    · rename_i hd
      rw [List.getElem_append_left (by rwa [length_bindersAround])]
      simp [bindersAround]
    · rename_i hd
      have hn : index - depth < names.length := by omega
      rw [ef _ _ (List.getElem?_eq_getElem hn), List.getElem_append_right (by simpa using hd)]
      simp
  rw [← eg, nd.idxOf_getElem]

/-- The term with names stands for the term that the names were given for. -/
lemma toIndex_named {t : IndexTerm} (inj : Function.Injective binder)
    (apart : ∀ d, binder d ∉ names) (nodup : names.Nodup)
    (ef : ∀ s name, names[s]? = some name → free s = name) {depth}
    (hs : ∀ s, t.FreeSlot s → s < depth + names.length) :
    (t.named binder free depth).toIndex (bindersAround binder depth ++ names) = t := by
  induction t generalizing depth with
  | idx index =>
    have hi := hs index (freeSlot_idx_iff.2 rfl)
    have ei := idxOf_name inj apart nodup ef hi
    by_cases hd : index < depth
    · rw [if_pos hd] at ei
      rw [named, if_pos hd, Term.toIndex, ei]
    · rw [if_neg hd] at ei
      rw [named, if_neg hd, Term.toIndex, ei]
  | lam body ih =>
    rw [named, Term.toIndex, ← List.cons_append, ← bindersAround_succ, ih]
    intro s h
    cases s with
    | zero => omega
    | succ s =>
      have lt := hs s (freeSlot_lam_iff.2 h)
      omega
  | app fn arg ihf iha =>
    simp only [freeSlot_app_iff] at hs
    rw [named, Term.toIndex, ihf fun s h => hs s (.inl h), iha fun s h => hs s (.inr h)]

/-- Every name that is given is the name of a binder or of a free variable. -/
lemma allLexable_named {t : IndexTerm} (lb : ∀ d, Lexable (binder d)) {depth}
    (lf : ∀ s, t.FreeSlot (depth + s) → Lexable (free s)) :
    (t.named binder free depth).AllLexable := by
  induction t generalizing depth with
  | idx index =>
    rw [named]
    split
    · exact lb _
    · refine lf (index - depth) (freeSlot_idx_iff.2 ?_)
      omega
  | lam body ih =>
    refine ⟨lb depth, ih fun s h => lf s (freeSlot_lam_iff.2 ?_)⟩
    rwa [Nat.add_right_comm]
  | app fn arg ihf iha =>
    exact ⟨ihf fun s h => lf s (freeSlot_app_iff.2 (.inl h)),
      iha fun s h => lf s (freeSlot_app_iff.2 (.inr h))⟩

end

/-! ### Readback -/

/-- All free slots of the term have a name in the table. -/
def Covered (t : IndexTerm) (free : FreeNames) : Prop :=
  ∀ s, t.FreeSlot s → s < free.size

variable {t : IndexTerm} {free : FreeNames}

/-- A free variable with a name in the table is written under this name. -/
lemma freeText_eq {s name} (e : free.names[s]? = some name) :
    Readback.freeText free s = name := by
  rw [Readback.freeText, FreeNames.name?, e]

/-- The readback of a term stands for that term. -/
lemma toIndex_readback (cov : t.Covered free) : (t.readback free 0).toIndex free.names = t := by
  show (t.readback free 0).toIndex (bindersAround (binderName free.names) 0 ++ free.names) = t
  refine toIndex_named (binderName_injective free.names) (binderName_notMem free.names) free.nodup
    (fun _ _ => freeText_eq) fun s hs => ?_
  rw [Nat.zero_add]
  exact cov s hs

/-- The free names of a readback are names in the table. -/
lemma mem_of_mem_freeNames_readback (cov : t.Covered free) {x}
    (hx : x ∈ (t.readback free 0).freeNames) : x ∈ free.names := by
  have hs : ((t.readback free 0).toIndex free.names).FreeSlot (free.names.idxOf x) :=
    Term.freeSlot_toIndex.2 ⟨x, hx, rfl⟩
  rw [toIndex_readback cov] at hs
  exact List.idxOf_lt_length_iff.1 (cov _ hs)

/-- The readback of a term can be read if the names in the table can. -/
lemma allLexable_readback (cov : t.Covered free) (lx : ∀ name ∈ free.names, Lexable name) :
    (t.readback free 0).AllLexable := by
  refine allLexable_named (lexable_binderName free.names) fun s hs => ?_
  rw [Nat.zero_add] at hs
  have e := List.getElem?_eq_getElem (cov s hs)
  rw [freeText_eq e]
  exact lx _ (List.getElem_mem _)

end IndexTerm

/-- If all free names of a term are in the table, so are all free slots of its indices. -/
lemma Term.covered_toIndex {t : Term} {free : FreeNames} (sub : ∀ x ∈ t.freeNames, x ∈ free.names) :
    (t.toIndex free.names).Covered free :=
  fun _ hs => freeSlot_toIndex_lt sub hs

end WeakHead

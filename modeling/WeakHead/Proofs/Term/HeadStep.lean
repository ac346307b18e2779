import WeakHead.Proofs.IndexTerm.Substitution
import WeakHead.Proofs.Term.Indices

/-!
# Head steps with names and with indices

Substitution that renames binders to avoid capture, on terms with names, is substitution on terms
with indices. Both put in terms for all free variables at once; for the step at the head only one of
them matters.
-/

namespace WeakHead

namespace Term

/-- Terms are put in for names as they are put in for the places of the names, if they agree for the
free names of the term. -/
lemma toIndex_substAll {t : Term} {σ : String → Term} {τ : Nat → IndexTerm}
    {names names' : List String}
    (e : ∀ x ∈ t.freeNames, (σ x).toIndex names' = τ (names.idxOf x)) :
    (t.substAll σ).toIndex names' = (t.toIndex names).substAll τ := by
  induction t generalizing σ τ names names' with
  | var name => exact e name (mem_freeNames_var.2 rfl)
  | abs binder body ih =>
    rw [substAll]
    generalize hr : freshName _ = renamed
    rw [toIndex, toIndex, IndexTerm.substAll, ih]
    intro x hx
    by_cases hb : x = binder
    · rw [if_pos hb, toIndex, List.idxOf_cons_self, List.idxOf_cons_eq _ hb.symm]
      rfl
    · have hf : x ∈ (abs binder body).freeNames := mem_freeNames_abs.2 ⟨hx, hb⟩
      -- The new name of the binder is no free name of what is put in below it.
      have fresh : renamed ∉ (σ x).freeNames := fun hm => by
        rw [← hr] at hm
        exact freshName_not_mem _ (List.mem_flatMap.2 ⟨x, hf, hm⟩)
      rw [if_neg hb, List.idxOf_cons_ne _ (Ne.symm hb), toIndex_cons fresh, e x hf]
      rfl
  | app fn arg ihf iha =>
    rw [substAll, toIndex, toIndex, IndexTerm.substAll,
      ihf fun x hx => e x (mem_freeNames_app.2 (.inl hx)),
      iha fun x hx => e x (mem_freeNames_app.2 (.inr hx))]

/-- Substitution for the variable of a binder takes the binder away. -/
lemma toIndex_subst (binder : String) (body arg : Term) (names : List String) :
    (subst binder arg body).toIndex names =
      IndexTerm.instantiate 0 (arg.toIndex names) (body.toIndex (binder :: names)) := by
  rw [IndexTerm.instantiate_eq_substAll, subst]
  refine toIndex_substAll fun x _ => ?_
  by_cases hb : x = binder
  · rw [if_pos hb, List.idxOf_cons_eq _ hb.symm]
    exact (IndexTerm.raise_zero 0 _).symm
  · rw [if_neg hb, List.idxOf_cons_ne _ (Ne.symm hb)]
    rfl

/-- The head step of a term with names is the head step of the term with indices. -/
lemma toIndex_headStep (t : Term) (names : List String) :
    (t.toIndex names).headStep? = t.headStep?.map (toIndex names) := by
  fun_induction headStep? t with
  | case1 binder body arg =>
    rw [toIndex, toIndex, IndexTerm.headStep?, Option.map_some, toIndex_subst]
  | case2 fn arg hfn ih =>
    have hne : ∀ body, fn.toIndex names ≠ .lam body := by
      intro body e
      cases fn with
      | abs binder body => exact hfn binder body rfl
      | _ => cases e
    rw [toIndex, IndexTerm.headStep?, ih, Option.map_map, Option.map_map]
    · rfl
    · exact hne
  | case3 t habs happ =>
    cases t with
    | app fn arg => exact absurd rfl (happ fn arg)
    | _ => rfl

/-- The free names of a term after its head step were free before. -/
lemma mem_freeNames_of_headStep {t u : Term} (e : t.headStep? = some u) {x}
    (hx : x ∈ u.freeNames) : x ∈ t.freeNames := by
  have ei : (t.toIndex t.freeNames).headStep? = some (u.toIndex t.freeNames) := by
    rw [toIndex_headStep, e]
    rfl
  have hs : (u.toIndex t.freeNames).FreeSlot (t.freeNames.idxOf x) :=
    freeSlot_toIndex.2 ⟨x, hx, rfl⟩
  exact List.idxOf_lt_length_iff.1 (freeSlot_toIndex_lt (fun _ hm => hm) (hs.of_headStep ei))

end Term

end WeakHead

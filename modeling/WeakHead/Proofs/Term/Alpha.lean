import WeakHead.Proofs.Term.Naming

/-!
# The same indices

Terms with names become the same term with indices exactly if they are the same up to the names of
their binders. Such terms have the same free names at the same places, so one of them can stand for
the others: what a term is read back as.
-/

namespace WeakHead.Term

/-! ### Places -/

/-- Names inside pairs of binders mean the same exactly if they have the same place. -/
lemma sameVar_iff {around : List (String × String)} {names : List String} {x y}
    (hx : x ∈ around.map Prod.fst ++ names) (hy : y ∈ around.map Prod.snd ++ names) :
    SameVar around x y ↔
      (around.map Prod.fst ++ names).idxOf x = (around.map Prod.snd ++ names).idxOf y := by
  induction around with
  | nil => exact (List.idxOf_inj hx).symm
  | cons pair around ih =>
    obtain ⟨a, b⟩ := pair
    simp only [List.map_cons, List.cons_append, SameVar] at hx hy ⊢
    by_cases ha : x = a <;> by_cases hb : y = b
    · rw [List.idxOf_cons_eq _ ha.symm, List.idxOf_cons_eq _ hb.symm]
      exact iff_of_true (.inl ⟨ha, hb⟩) rfl
    · rw [List.idxOf_cons_eq _ ha.symm, List.idxOf_cons_ne _ (Ne.symm hb)]
      simp [ha, hb]
    · rw [List.idxOf_cons_ne _ (Ne.symm ha), List.idxOf_cons_eq _ hb.symm]
      simp [ha, hb]
    · rw [List.idxOf_cons_ne _ (Ne.symm ha), List.idxOf_cons_ne _ (Ne.symm hb),
        Nat.succ_inj, ← ih ((List.mem_cons.1 hx).resolve_left ha)
          ((List.mem_cons.1 hy).resolve_left hb)]
      simp [ha, hb]

/-- Inside pairs of binders, terms are the same up to the names of binders exactly if they become
the same term with indices. -/
lemma alphaWithin_iff {around : List (String × String)} {names : List String} {t u : Term}
    (ht : ∀ x ∈ t.freeNames, x ∈ around.map Prod.fst ++ names)
    (hu : ∀ x ∈ u.freeNames, x ∈ around.map Prod.snd ++ names) :
    AlphaWithin around t u ↔
      t.toIndex (around.map Prod.fst ++ names) = u.toIndex (around.map Prod.snd ++ names) := by
  induction t generalizing around u with
  | var x =>
    cases u with
    | var y =>
      have hv := sameVar_iff (ht x (mem_freeNames_var.2 rfl)) (hu y (mem_freeNames_var.2 rfl))
      rw [toIndex, toIndex, IndexTerm.idx.injEq, ← hv]
      constructor
      · rintro ⟨h⟩
        exact h
      · exact .var
    | _ => exact iff_of_false (by rintro ⟨⟩) (by rintro ⟨⟩)
  | abs a t ih =>
    cases u with
    | abs b u =>
      have hb := @ih ((a, b) :: around) u (mem_cons_of_freeNames_abs ht)
        (mem_cons_of_freeNames_abs hu)
      rw [toIndex, toIndex, IndexTerm.lam.injEq]
      refine Iff.trans ?_ hb
      constructor
      · rintro ⟨⟩
        assumption
      · exact .abs
    | _ => exact iff_of_false (by rintro ⟨⟩) (by rintro ⟨⟩)
  | app t t' iht iht' =>
    cases u with
    | app u u' =>
      simp only [mem_freeNames_app, or_imp, forall_and] at ht hu
      rw [toIndex, toIndex, IndexTerm.app.injEq, ← iht ht.1 hu.1, ← iht' ht.2 hu.2]
      constructor
      · rintro ⟨⟩
        constructor <;> assumption
      · rintro ⟨h, h'⟩
        exact .app h h'
    | _ => exact iff_of_false (by rintro ⟨⟩) (by rintro ⟨⟩)

/-- Terms whose free names are listed are the same up to the names of their binders exactly if they
become the same term with indices. -/
lemma alphaEq_iff {names : List String} {t u : Term} (ht : ∀ x ∈ t.freeNames, x ∈ names)
    (hu : ∀ x ∈ u.freeNames, x ∈ names) : AlphaEq t u ↔ t.toIndex names = u.toIndex names :=
  @alphaWithin_iff [] names t u ht hu

/-! ### Free names -/

/-- Variables that mean the same are both bound, or free and of one name. -/
lemma SameVar.bound_or_eq {around x y} (sv : SameVar around x y) :
    (x ∈ around.map Prod.fst ∧ y ∈ around.map Prod.snd) ∨
      (x ∉ around.map Prod.fst ∧ y ∉ around.map Prod.snd ∧ x = y) := by
  induction around with
  | nil => exact .inr ⟨List.not_mem_nil, List.not_mem_nil, sv⟩
  | cons pair around ih =>
    obtain ⟨a, b⟩ := pair
    simp only [List.map_cons, List.mem_cons, not_or]
    rcases sv with ⟨ha, hb⟩ | ⟨ha, hb, sv⟩
    · exact .inl ⟨.inl ha, .inl hb⟩
    · rcases ih sv with ⟨hx, hy⟩ | ⟨hx, hy, e⟩
      · exact .inl ⟨.inr hx, .inr hy⟩
      · exact .inr ⟨⟨ha, hx⟩, ⟨hb, hy⟩, e⟩

/-- Terms that are the same inside pairs of binders have the same names from outside them, one for
one. -/
lemma AlphaWithin.freeNames_eq {around t u} (al : AlphaWithin around t u) :
    t.freeNames.filter (· ∉ around.map Prod.fst) =
      u.freeNames.filter (· ∉ around.map Prod.snd) := by
  induction al with
  | var sv =>
    rcases sv.bound_or_eq with ⟨hx, hy⟩ | ⟨hx, hy, rfl⟩
    · simp [freeNames, hx, hy]
    · simp [freeNames, hx, hy]
  | abs _ ih =>
    rw [filter_freeNames_abs, filter_freeNames_abs]
    exact ih
  | app _ _ ihf iha =>
    rw [freeNames, freeNames, List.filter_append, List.filter_append, ihf, iha]

/-- Terms that are the same up to the names of their binders have the same free names, one for
one. -/
lemma AlphaEq.freeNames_eq {t u} (al : AlphaEq t u) : t.freeNames = u.freeNames := by
  simpa using AlphaWithin.freeNames_eq al

/-- Terms are the same up to the names of their binders if a third one is the same as both. -/
lemma AlphaEq.of_common {t u v : Term} (al : v.AlphaEq t) (al' : v.AlphaEq u) : t.AlphaEq u := by
  have sub : ∀ x ∈ t.freeNames, x ∈ v.freeNames := by simp [al.freeNames_eq]
  have sub' : ∀ x ∈ u.freeNames, x ∈ v.freeNames := by simp [al'.freeNames_eq]
  rw [alphaEq_iff (fun _ => id) sub] at al
  rw [alphaEq_iff (fun _ => id) sub'] at al'
  rw [alphaEq_iff sub sub', ← al, al']

/-- A term is read back as itself, up to the names of its binders. -/
lemma alphaEq_readback {t : Term} {free : FreeNames} (sub : ∀ x ∈ t.freeNames, x ∈ free.names) :
    ((t.toIndex free.names).readback free 0).AlphaEq t := by
  have cov := covered_toIndex sub
  rw [alphaEq_iff (fun x => IndexTerm.mem_of_mem_freeNames_readback cov) sub]
  exact IndexTerm.toIndex_readback cov

end WeakHead.Term

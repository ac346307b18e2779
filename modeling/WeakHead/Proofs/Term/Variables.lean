import WeakHead.Proofs.Term.Indices
import WeakHead.Term.Variables

/-!
# Places of variables

`toIndex` writes for every variable its place in the list of the names of binders and free
variables. Read as a distance to a binder or as a number in the table, this place is what the
variable stands for, and it stands for the same under every table that has its name.
-/

namespace WeakHead

namespace Term

/-- No name before the place of a name is the same. -/
lemma getElem?_ne_of_lt_idxOf {names : List String} {name i} (hi : i < names.idxOf name) :
    names[i]? ≠ some name := by
  intro e
  obtain ⟨_, rfl⟩ := List.getElem?_eq_some_iff.1 e
  have e := List.not_of_lt_findIdx hi
  rw [beq_self_eq_true] at e
  cases e

/-- A term comes to its places, if the free names have one. -/
lemma resolvesTo_toIndex {free : FreeNames} {t : Term} {scope}
    (sub : ∀ x ∈ t.freeNames, x ∈ scope ++ free.names) :
    t.ResolvesTo free scope (t.toIndex (scope ++ free.names)) := by
  induction t generalizing scope with
  | var name =>
    rw [toIndex]
    by_cases hm : name ∈ scope
    · rw [List.idxOf_append_of_mem hm]
      exact .bound (List.getElem?_idxOf hm) fun inner hi => getElem?_ne_of_lt_idxOf hi
    · have hf := (List.mem_append.1 (sub name (mem_freeNames_var.2 rfl))).resolve_left hm
      rw [List.idxOf_append_of_notMem hm, Nat.add_comm]
      exact .free hm (List.getElem?_idxOf hf)
  | abs binder body ih => exact .abs (ih (mem_cons_of_freeNames_abs sub))
  | app fn arg ihf iha =>
    simp only [mem_freeNames_app, or_imp, forall_and] at sub
    exact .app (ihf sub.1) (iha sub.2)

/-- The places of a term under two tables that have its free names stand for the same. -/
lemma sameVariables_toIndex {free free' : FreeNames} {t : Term} {scope}
    (sub : ∀ x ∈ t.freeNames, x ∈ scope ++ free.names)
    (sub' : ∀ x ∈ t.freeNames, x ∈ scope ++ free'.names) :
    IndexTerm.SameVariables free free' scope.length (t.toIndex (scope ++ free.names))
      (t.toIndex (scope ++ free'.names)) := by
  induction t generalizing scope with
  | var name =>
    rw [toIndex, toIndex]
    by_cases hm : name ∈ scope
    · rw [List.idxOf_append_of_mem hm, List.idxOf_append_of_mem hm]
      exact .bound (List.idxOf_lt_length_of_mem hm)
    · have hf := (List.mem_append.1 (sub name (mem_freeNames_var.2 rfl))).resolve_left hm
      have hf' := (List.mem_append.1 (sub' name (mem_freeNames_var.2 rfl))).resolve_left hm
      rw [List.idxOf_append_of_notMem hm, List.idxOf_append_of_notMem hm, Nat.add_comm,
        Nat.add_comm scope.length]
      exact .free (List.getElem?_idxOf hf) (List.getElem?_idxOf hf')
  | abs binder body ih =>
    exact .lam (@ih (binder :: scope) (mem_cons_of_freeNames_abs sub)
      (mem_cons_of_freeNames_abs sub'))
  | app fn arg ihf iha =>
    simp only [mem_freeNames_app, or_imp, forall_and] at sub sub'
    exact .app (ihf sub.1 sub'.1) (iha sub.2 sub'.2)

end Term

end WeakHead

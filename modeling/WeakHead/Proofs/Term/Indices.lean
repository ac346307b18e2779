import Mathlib.Data.List.Basic
import WeakHead.Proofs.IndexTerm.Occurrence
import WeakHead.Term.Alpha

/-!
# Terms with names as terms with indices

A name that stands inside the binders `b₁`, `b₂`, … and may otherwise be one of the free names `f₁`,
`f₂`, … is a place in the one list `b₁, b₂, …, f₁, f₂, …`, innermost binder first. `Term.toIndex`
writes this place for every variable. It hangs on the places of the free names of the term only, and
a name more in the list raises the indices that count past it.
-/

namespace WeakHead

namespace Term

/-- The term with indices, where free names are counted by their places in `names`. -/
def toIndex (names : List String) : Term → IndexTerm
  | var name => .idx (names.idxOf name)
  | abs binder body => .lam (body.toIndex (binder :: names))
  | app fn arg => .app (fn.toIndex names) (arg.toIndex names)

@[simp] lemma size_toIndex (t : Term) (names : List String) : (t.toIndex names).size = t.size := by
  induction t generalizing names with
  | var name => rfl
  | abs binder body ih => rw [toIndex, IndexTerm.size, ih, size]
  | app fn arg ihf iha => rw [toIndex, IndexTerm.size, ihf, iha, size]

@[simp] lemma mem_freeNames_var {x name} : x ∈ (var name).freeNames ↔ x = name :=
  List.mem_singleton

@[simp] lemma mem_freeNames_abs {x binder body} :
    x ∈ (abs binder body).freeNames ↔ x ∈ body.freeNames ∧ x ≠ binder := by
  simp [freeNames]

@[simp] lemma mem_freeNames_app {x fn arg} :
    x ∈ (app fn arg).freeNames ↔ x ∈ fn.freeNames ∨ x ∈ arg.freeNames :=
  List.mem_append

/-- The free names that an abstraction has inside some binders are those that its body has inside
one more. -/
lemma filter_freeNames_abs (binder : String) (body : Term) (scope : List String) :
    (abs binder body).freeNames.filter (· ∉ scope) =
      body.freeNames.filter (· ∉ binder :: scope) := by
  rw [freeNames, List.filter_filter]
  exact List.filter_congr fun x _ => by simp [Bool.and_comm]

/-- A free name of the body is the name of the binder or a free name of the abstraction. -/
lemma mem_cons_of_freeNames_abs {binder : String} {body : Term} {names : List String}
    (sub : ∀ x ∈ (abs binder body).freeNames, x ∈ names) :
    ∀ x ∈ body.freeNames, x ∈ binder :: names := by
  intro x hx
  by_cases hb : x = binder
  · exact hb ▸ List.mem_cons_self
  · exact List.mem_cons_of_mem _ (sub x (mem_freeNames_abs.2 ⟨hx, hb⟩))

/-- Only the places of the free names count. -/
lemma toIndex_congr {t : Term} {names names' : List String}
    (e : ∀ x ∈ t.freeNames, names.idxOf x = names'.idxOf x) :
    t.toIndex names = t.toIndex names' := by
  induction t generalizing names names' with
  | var name => rw [toIndex, toIndex, e name (mem_freeNames_var.2 rfl)]
  | abs binder body ih =>
    rw [toIndex, toIndex, ih]
    intro x hx
    by_cases hb : binder = x
    · rw [List.idxOf_cons_eq _ hb, List.idxOf_cons_eq _ hb]
    · rw [List.idxOf_cons_ne _ hb, List.idxOf_cons_ne _ hb,
        e x (mem_freeNames_abs.2 ⟨hx, Ne.symm hb⟩)]
  | app fn arg ihf iha =>
    rw [toIndex, toIndex, ihf fun x hx => e x (mem_freeNames_app.2 (.inl hx)),
      iha fun x hx => e x (mem_freeNames_app.2 (.inr hx))]

/-- More names at the end change nothing for names that are in the list already. -/
lemma toIndex_append {t : Term} {names : List String} (sub : ∀ x ∈ t.freeNames, x ∈ names)
    (more : List String) : t.toIndex (names ++ more) = t.toIndex names :=
  toIndex_congr fun x hx => List.idxOf_append_of_mem (sub x hx)

/-- A name that is no free name of the term, or that is hidden by an inner one, raises the indices
that count past it. -/
lemma toIndex_insert {t : Term} {inner names : List String} {y}
    (hy : y ∈ t.freeNames → y ∈ inner) :
    t.toIndex (inner ++ y :: names) = (t.toIndex (inner ++ names)).raise 1 inner.length := by
  induction t generalizing inner with
  | var name =>
    rw [mem_freeNames_var] at hy
    simp only [toIndex, IndexTerm.raise]
    congr 1
    by_cases hn : name ∈ inner
    · rw [List.idxOf_append_of_mem hn, List.idxOf_append_of_mem hn,
        if_pos (List.idxOf_lt_length_of_mem hn)]
    · have ne : y ≠ name := fun e => hn (e ▸ hy e)
      rw [List.idxOf_append_of_notMem hn, List.idxOf_append_of_notMem hn, List.idxOf_cons_ne _ ne,
        if_neg (Nat.not_lt.2 (Nat.le_add_right _ _))]
      rfl
  | abs binder body ih =>
    simp only [toIndex, IndexTerm.raise]
    refine congrArg IndexTerm.lam (@ih (binder :: inner) fun hm => ?_)
    by_cases hb : y = binder
    · exact hb ▸ List.mem_cons_self
    · exact List.mem_cons_of_mem _ (hy (mem_freeNames_abs.2 ⟨hm, hb⟩))
  | app fn arg ihf iha =>
    simp only [toIndex, IndexTerm.raise]
    rw [ihf fun hm => hy (mem_freeNames_app.2 (.inl hm)),
      iha fun hm => hy (mem_freeNames_app.2 (.inr hm))]

/-- A new binder raises all free indices. -/
lemma toIndex_cons {t : Term} {names : List String} {y} (hy : y ∉ t.freeNames) :
    t.toIndex (y :: names) = (t.toIndex names).raise 1 0 :=
  @toIndex_insert t [] names y fun hm => absurd hm hy

/-- The free slots are the places of the free names. -/
lemma freeSlot_toIndex {t : Term} {names : List String} {s} :
    (t.toIndex names).FreeSlot s ↔ ∃ x ∈ t.freeNames, names.idxOf x = s := by
  induction t generalizing names s with
  | var name => simp [toIndex, eq_comm]
  | abs binder body ih =>
    simp only [toIndex, IndexTerm.freeSlot_lam_iff, ih, mem_freeNames_abs]
    constructor
    · rintro ⟨x, hx, e⟩
      have hb : binder ≠ x := by
        rintro rfl
        rw [List.idxOf_cons_self] at e
        cases e
      rw [List.idxOf_cons_ne _ hb] at e
      exact ⟨x, ⟨hx, hb.symm⟩, Nat.succ.inj e⟩
    · rintro ⟨x, ⟨hx, hb⟩, rfl⟩
      exact ⟨x, hx, List.idxOf_cons_ne _ hb.symm⟩
  | app fn arg ihf iha =>
    simp only [toIndex, IndexTerm.freeSlot_app_iff, ihf, iha, mem_freeNames_app, or_and_right,
      exists_or]

/-- If all free names are in the list, all free slots are places in it. -/
lemma freeSlot_toIndex_lt {t : Term} {names : List String} (sub : ∀ x ∈ t.freeNames, x ∈ names)
    {s} (hs : (t.toIndex names).FreeSlot s) : s < names.length := by
  obtain ⟨x, hx, rfl⟩ := freeSlot_toIndex.1 hs
  exact List.idxOf_lt_length_of_mem (sub x hx)

end Term

end WeakHead

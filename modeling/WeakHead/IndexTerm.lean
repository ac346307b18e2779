/-!
# Terms with indices

The λ-calculus without names: a variable counts the binders between itself and the one that binds
it, and an index that counts past all of them is free. Here are the textbook notions that reduction
in a heap has to agree with: raising free indices, putting an argument in for the variable of a
binder, a β-step at any place, and the step at the head of the spine.

Main statement: a term has no head step exactly if it is in weak head normal form.
-/

namespace WeakHead

/-- A λ-term with indices. -/
inductive IndexTerm where
  | idx (index : Nat)
  | lam (body : IndexTerm)
  | app (fn arg : IndexTerm)
deriving DecidableEq, Repr

namespace IndexTerm

/-- The number of constructors. -/
def size : IndexTerm → Nat
  | idx _ => 1
  | lam body => body.size + 1
  | app fn arg => fn.size + arg.size + 1

/-- Adds `amount` to the indices that point past `cutoff` binders. -/
def raise (amount cutoff : Nat) : IndexTerm → IndexTerm
  | idx index => idx (if index < cutoff then index else index + amount)
  | lam body => lam (body.raise amount (cutoff + 1))
  | app fn arg => app (fn.raise amount cutoff) (arg.raise amount cutoff)

/-- Takes away the binder `level` binders further out: its variable becomes `arg`, raised by the
binders around it; indices past the binder drop by one. -/
def instantiate (level : Nat) (arg : IndexTerm) : IndexTerm → IndexTerm
  | idx index =>
    if index < level then idx index
    else if index = level then arg.raise level 0
    else idx (index - 1)
  | lam body => lam (instantiate (level + 1) arg body)
  | app fn other => app (instantiate level arg fn) (instantiate level arg other)

/-- The term after the contraction of the applied abstraction on its spine, if there is one. -/
def headStep? : IndexTerm → Option IndexTerm
  | app (lam body) arg => some (instantiate 0 arg body)
  | app fn arg => (headStep? fn).map fun fn => app fn arg
  | _ => none

/-- A variable applied to any number of arguments. -/
inductive IsNeutral : IndexTerm → Prop where
  | idx (index : Nat) : IsNeutral (idx index)
  | app {fn : IndexTerm} (arg : IndexTerm) : IsNeutral fn → IsNeutral (app fn arg)

/-- An abstraction, or a variable applied to any number of arguments. -/
inductive IsWhnf : IndexTerm → Prop where
  | lam (body : IndexTerm) : IsWhnf (lam body)
  | neutral {t : IndexTerm} : IsNeutral t → IsWhnf t

/-- A contraction at any place. -/
inductive Beta : IndexTerm → IndexTerm → Prop where
  | contract (body arg : IndexTerm) : Beta (app (lam body) arg) (instantiate 0 arg body)
  | lam {body body' : IndexTerm} : Beta body body' → Beta (lam body) (lam body')
  | fn {fn fn' : IndexTerm} (arg : IndexTerm) : Beta fn fn' → Beta (app fn arg) (app fn' arg)
  | arg (fn : IndexTerm) {arg arg' : IndexTerm} : Beta arg arg' → Beta (app fn arg) (app fn arg')

/-- Raising by nothing changes nothing. -/
@[simp] theorem raise_zero (cutoff : Nat) (t : IndexTerm) : t.raise 0 cutoff = t := by
  induction t generalizing cutoff with
  | idx index => simp [raise]
  | lam body ih => simp [raise, ih]
  | app fn arg ihf iha => simp [raise, ihf, iha]

/-- An application is neutral if its function is. -/
theorem isNeutral_app_iff {fn arg : IndexTerm} : IsNeutral (app fn arg) ↔ IsNeutral fn :=
  ⟨fun h => by cases h; assumption, .app arg⟩

/-- An application is in weak head normal form if its function is neutral. -/
theorem isWhnf_app_iff {fn arg : IndexTerm} : IsWhnf (app fn arg) ↔ IsNeutral fn := by
  constructor
  · intro h
    cases h with
    | neutral hn => exact isNeutral_app_iff.1 hn
  · exact fun h => .neutral (.app arg h)

/-- A head step is a step. -/
theorem Beta.of_headStep {t u : IndexTerm} (h : t.headStep? = some u) : Beta t u := by
  fun_induction headStep? t generalizing u with
  | case1 body arg =>
    cases h
    exact .contract body arg
  | case2 fn arg _ ih =>
    obtain ⟨fn', hfn, rfl⟩ := Option.map_eq_some_iff.1 h
    exact .fn arg (ih hfn)
  | case3 => cases h

/-- A term has no head step exactly if it is in weak head normal form. -/
theorem headStep_eq_none_iff {t : IndexTerm} : t.headStep? = none ↔ IsWhnf t := by
  fun_induction headStep? t with
  | case1 body arg =>
    simp only [reduceCtorEq, false_iff, isWhnf_app_iff]
    intro h
    cases h
  | case2 fn arg hfn ih =>
    rw [Option.map_eq_none_iff, ih, isWhnf_app_iff]
    constructor
    · intro h
      cases h with
      | lam body => exact absurd rfl (hfn body)
      | neutral hn => exact hn
    · exact .neutral
  | case3 t hbeta happ =>
    refine iff_of_true rfl ?_
    cases t with
    | idx index => exact .neutral (.idx index)
    | lam body => exact .lam body
    | app fn arg => exact absurd rfl (happ fn arg)

end IndexTerm

end WeakHead

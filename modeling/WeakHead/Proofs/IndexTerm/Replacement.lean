import WeakHead.Proofs.IndexTerm.Substitution

/-!
# Putting a term in for one index

A free slot of a term is a different index under each number of binders. `mapVars` shows this number
to what is put in. What the walk with two counters puts in is then said in one line, and it is the
substitution of one index that captures nothing.

Main statement: `mapVars_eq_substAll`.
-/

namespace WeakHead.IndexTerm

/-- Puts a term in for each variable, which may depend on its index and on the number of binders
crossed on the way to it, starting from `crossed`. -/
def mapVars (f : Nat → Nat → IndexTerm) (crossed : Nat) : IndexTerm → IndexTerm
  | idx index => f crossed index
  | lam body => lam (body.mapVars f (crossed + 1))
  | app fn arg => app (fn.mapVars f crossed) (arg.mapVars f crossed)

/-- What is put in for each index, under `crossed` binders, where `expr` replaces `level`. -/
def replacing (expr : IndexTerm) (level crossed index : Nat) : IndexTerm :=
  if index = level + crossed then expr.raise crossed 0 else idx index

lemma replacing_zero (expr : IndexTerm) (level : Nat) :
    replacing expr level 0 = fun index => if index = level then expr else idx index := by
  funext index
  rw [replacing, Nat.add_zero, raise_zero]

/-- The level and the binders crossed move together. -/
lemma putCopies_eq_mapVars (expr : IndexTerm) (level crossed : Nat) (t : IndexTerm) :
    putCopies expr (level + crossed) crossed t = t.mapVars (replacing expr level) crossed := by
  induction t generalizing crossed with
  | idx index => rfl
  | lam body ih =>
    rw [putCopies, mapVars, Nat.add_assoc, ih]
  | app fn arg ihf iha => rw [putCopies, mapVars, ihf, iha]

/-- One more binder around raises what is put in once more. -/
lemma under_replacing (expr : IndexTerm) (level crossed : Nat) :
    under (replacing expr level crossed) = replacing expr level (crossed + 1) := by
  funext index
  cases index with
  | zero => exact (if_neg (Nat.succ_ne_zero _).symm).symm
  | succ index =>
    simp only [under, replacing, ← Nat.add_assoc, Nat.add_right_cancel_iff]
    split_ifs with he
    · rw [raise_raise]
    · rfl

/-- Putting in a term for one index under all binders is a substitution that captures nothing. -/
lemma mapVars_eq_substAll (expr : IndexTerm) (level crossed : Nat) (t : IndexTerm) :
    t.mapVars (replacing expr level) crossed = t.substAll (replacing expr level crossed) := by
  induction t generalizing crossed with
  | idx index => rfl
  | lam body ih => rw [mapVars, substAll, under_replacing, ih]
  | app fn arg ihf iha => rw [mapVars, substAll, ihf, iha]

end WeakHead.IndexTerm

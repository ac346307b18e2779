import Mathlib.Logic.Relation
import WeakHead.Proofs.IndexTerm.Substitution

/-!
# Standard reductions

Whatever a term can be reduced to by contractions anywhere can be reached by head steps first and
contractions in the parts of what they have led to after that. Contractions in the parts make no
abstraction and no variable at the head that the head steps have not made. So if there is a way to a
weak head normal form, the head steps are one.

Main statement: `exists_headSteps_of_beta`.
-/

namespace WeakHead.IndexTerm

/-! ### Head steps -/

/-- The term after `n` head steps, if there are so many. -/
def headSteps? : (n : Nat) → IndexTerm → Option IndexTerm
  | 0, t => some t
  | n + 1, t => t.headStep?.bind (headSteps? n)

lemma headStep_app {fn fn' : IndexTerm} (e : fn.headStep? = some fn') (arg : IndexTerm) :
    (app fn arg).headStep? = some (app fn' arg) := by
  rw [headStep?, e]
  · rfl
  · rintro body rfl
    cases e

lemma headStep_substAll {t u : IndexTerm} (e : t.headStep? = some u) (τ : Nat → IndexTerm) :
    (t.substAll τ).headStep? = some (u.substAll τ) := by
  fun_induction headStep? t generalizing u with
  | case1 body arg =>
    cases e
    rw [substAll_instantiate]
    rfl
  | case2 fn arg hfn ih =>
    obtain ⟨fn', ef, rfl⟩ := Option.map_eq_some_iff.1 e
    exact headStep_app (ih ef) _
  | case3 => cases e

/-- A head step stays one when the indices are raised. -/
lemma headStep_raise {t u : IndexTerm} (e : t.headStep? = some u) (amount cutoff : Nat) :
    (t.raise amount cutoff).headStep? = some (u.raise amount cutoff) := by
  rw [raise_eq_substAll, raise_eq_substAll]
  exact headStep_substAll e _

lemma headSteps_app {n} {fn fn' : IndexTerm} (e : fn.headSteps? n = some fn') (arg : IndexTerm) :
    (app fn arg).headSteps? n = some (app fn' arg) := by
  induction n generalizing fn with
  | zero =>
    cases e
    rfl
  | succ n ih =>
    obtain ⟨fn₁, e₁, e⟩ := Option.bind_eq_some_iff.1 e
    rw [headSteps?, headStep_app e₁ arg]
    exact ih e

/-! ### Standard reductions -/

/-- A reduction that makes head steps first, and then goes on in the parts of what they have led
to. -/
inductive Standard : IndexTerm → IndexTerm → Prop where
  | idx (index : Nat) : Standard (idx index) (idx index)
  | lam {body body'} : Standard body body' → Standard (lam body) (lam body')
  | app {fn fn' arg arg'} :
    Standard fn fn' → Standard arg arg' → Standard (app fn arg) (app fn' arg')
  | head {t u v} : t.headStep? = some u → Standard u v → Standard t v

namespace Standard

lemma refl (t : IndexTerm) : Standard t t := by
  induction t with
  | idx index => exact .idx index
  | lam body ih => exact .lam ih
  | app fn arg ihf iha => exact .app ihf iha

lemma raise {t u} (st : Standard t u) (amount cutoff) :
    Standard (t.raise amount cutoff) (u.raise amount cutoff) := by
  induction st generalizing cutoff with
  | idx index => exact .idx _
  | lam _ ih => exact .lam (ih _)
  | app _ _ ihf iha => exact .app (ihf _) (iha _)
  | head e _ ih => exact .head (headStep_raise e amount cutoff) (ih cutoff)

/-- What is put in for indices may be reduced inside a binder as well. -/
lemma under {σ τ : Nat → IndexTerm} (st : ∀ index, Standard (σ index) (τ index)) (index) :
    Standard (IndexTerm.under σ index) (IndexTerm.under τ index) := by
  cases index with
  | zero => exact .idx 0
  | succ index => exact (st index).raise 1 0

lemma substAll {t u} (st : Standard t u) {σ τ : Nat → IndexTerm}
    (sts : ∀ index, Standard (σ index) (τ index)) : Standard (t.substAll σ) (u.substAll τ) := by
  induction st generalizing σ τ with
  | idx index => exact sts index
  | lam _ ih => exact .lam (ih (under sts))
  | app _ _ ihf iha => exact .app (ihf sts) (iha sts)
  | head e _ ih => exact .head (headStep_substAll e σ) (ih sts)

/-- A body may be reduced, and the argument that is put into it. -/
lemma instantiate {body body' arg arg'} (stb : Standard body body') (sta : Standard arg arg') :
    Standard (IndexTerm.instantiate 0 arg body) (IndexTerm.instantiate 0 arg' body') := by
  rw [instantiate_eq_substAll, instantiate_eq_substAll]
  refine stb.substAll fun index => ?_
  cases index with
  | zero => exact sta.raise 0 0
  | succ index => exact .refl _

/-- Where a function is reduced to an abstraction, which is then contracted, the head steps that
lead to an abstraction are followed by its contraction before anything else is done. -/
lemma contract_app {fn body arg arg'} (st : Standard fn (.lam body)) (sta : Standard arg arg') :
    Standard (.app fn arg) (IndexTerm.instantiate 0 arg' body) := by
  generalize e : IndexTerm.lam body = u at st
  induction st with
  | lam stb =>
    cases e
    exact .head rfl (stb.instantiate sta)
  | head eh _ ih => exact .head (headStep_app eh arg) (ih e)
  | _ => cases e

/-- After a standard reduction another contraction can be made, and there is a standard reduction
again. -/
lemma beta {t u v} (st : Standard t u) (be : Beta u v) : Standard t v := by
  induction st generalizing v with
  | idx index => cases be
  | lam _ ih =>
    cases be with
    | lam be => exact .lam (ih be)
  | app stf sta ihf iha =>
    cases be with
    -- The head steps that have made the function an abstraction are head steps of the whole.
    | contract body arg => exact stf.contract_app sta
    | fn _ be => exact .app (ihf be) sta
    | arg _ be => exact .app stf (iha be)
  | head e _ ih => exact .head e (ih be)

/-- Whatever can be reached by contractions anywhere is reached by a standard reduction. -/
lemma of_beta {t u} (be : Relation.ReflTransGen Beta t u) : Standard t u := by
  induction be with
  | refl => exact .refl t
  | tail _ be ih => exact ih.beta be

end Standard

/-- Where a standard reduction ends in a neutral term, its head steps have led to one. -/
lemma Standard.exists_neutral {t u} (st : Standard t u) (ne : u.IsNeutral) :
    ∃ n v, t.headSteps? n = some v ∧ v.IsNeutral := by
  induction st with
  | idx index => exact ⟨0, _, rfl, .idx index⟩
  | lam _ _ => cases ne
  | @app _ _ arg _ _ _ ihf _ =>
    cases ne with
    | app _ ne =>
      obtain ⟨n, v, e, nev⟩ := ihf ne
      exact ⟨n, _, headSteps_app e arg, .app arg nev⟩
  | head e _ ih =>
    obtain ⟨n, v, e', nev⟩ := ih ne
    exact ⟨n + 1, v, Option.bind_eq_some_iff.2 ⟨_, e, e'⟩, nev⟩

/-- Where a standard reduction ends in an abstraction, its head steps have led to one. -/
lemma Standard.exists_lam {t body} (st : Standard t (.lam body)) :
    ∃ n body', t.headSteps? n = some (.lam body') := by
  generalize e : IndexTerm.lam body = u at st
  induction st with
  | lam _ _ => exact ⟨0, _, rfl⟩
  | head eh _ ih =>
    obtain ⟨n, body', e'⟩ := ih e
    exact ⟨n + 1, body', Option.bind_eq_some_iff.2 ⟨_, eh, e'⟩⟩
  | _ => cases e

/-- A term that can be brought to weak head normal form in any way is brought to one by its head
steps. -/
theorem exists_headSteps_of_beta {t u} (be : Relation.ReflTransGen Beta t u) (wh : u.IsWhnf) :
    ∃ n v, t.headSteps? n = some v ∧ v.IsWhnf := by
  have st := Standard.of_beta be
  cases wh with
  | lam body =>
    obtain ⟨n, body', e⟩ := st.exists_lam
    exact ⟨n, _, e, .lam body'⟩
  | neutral ne =>
    obtain ⟨n, v, e, ne'⟩ := st.exists_neutral ne
    exact ⟨n, v, e, .neutral ne'⟩

end WeakHead.IndexTerm

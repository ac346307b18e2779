import WeakHead.Proofs.IndexTerm.Arithmetic

/-!
# Substitution for all indices

Taking a binder away puts in a term for one index and moves the others; raising moves indices. Both
are cases of putting in terms for all indices at once, and so is one such substitution after
another. Laws of this one operation are laws of all three.

Main statements: `instantiate_eq_substAll`, `substAll_instantiate`.
-/

namespace WeakHead.IndexTerm

/-- What is put in for indices inside one more binder: its own variable stays, and what comes from
outside is raised over it. -/
def under (τ : Nat → IndexTerm) : Nat → IndexTerm
  | 0 => idx 0
  | index + 1 => (τ index).raise 1 0

/-- Puts a term in for every index. -/
def substAll (τ : Nat → IndexTerm) : IndexTerm → IndexTerm
  | idx index => τ index
  | lam body => lam (body.substAll (under τ))
  | app fn arg => app (fn.substAll τ) (arg.substAll τ)

/-- What is put in for each index where a binder goes. -/
def instead (level : Nat) (arg : IndexTerm) (index : Nat) : IndexTerm :=
  if index < level then idx index
  else if index = level then arg.raise level 0
  else idx (index - 1)

@[simp] lemma instead_zero (arg : IndexTerm) : instead 0 arg 0 = arg :=
  raise_zero 0 arg

@[simp] lemma instead_succ (arg : IndexTerm) (index : Nat) :
    instead 0 arg (index + 1) = idx index :=
  rfl

/-- One more binder around is one level more. -/
lemma under_instead (level : Nat) (arg : IndexTerm) :
    under (instead level arg) = instead (level + 1) arg := by
  funext index
  cases index with
  | zero => rfl
  | succ index =>
    simp only [under, instead, Nat.add_lt_add_iff_right, Nat.add_right_cancel_iff]
    split_ifs with hlt he
    · rfl
    · rw [raise_raise]
    · simp only [raise, Nat.not_lt_zero, if_false]
      congr 1
      omega

/-- Taking a binder away puts a term in for every index. -/
lemma instantiate_eq_substAll (level : Nat) (arg t : IndexTerm) :
    instantiate level arg t = t.substAll (instead level arg) := by
  induction t generalizing level with
  | idx index => rfl
  | lam body ih => rw [instantiate, substAll, under_instead, ih]
  | app fn other ihf iha => rw [instantiate, substAll, ihf, iha]

/-! ### Laws of substitution -/

/-- Where an index goes when it is raised. -/
def raiseIndex (amount cutoff index : Nat) : Nat :=
  if index < cutoff then index else index + amount

@[simp] lemma raiseIndex_succ (amount cutoff index : Nat) :
    raiseIndex amount (cutoff + 1) (index + 1) = raiseIndex amount cutoff index + 1 := by
  simp only [raiseIndex]
  split_ifs <;> omega

@[simp] lemma raiseIndex_zero (amount cutoff : Nat) : raiseIndex amount (cutoff + 1) 0 = 0 :=
  if_pos cutoff.succ_pos

@[simp] lemma raiseIndex_from_zero (amount index : Nat) :
    raiseIndex amount 0 index = index + amount :=
  if_neg index.not_lt_zero

/-- To raise is to put in other indices. -/
lemma raise_eq_substAll (amount cutoff : Nat) (t : IndexTerm) :
    t.raise amount cutoff = t.substAll fun index => idx (raiseIndex amount cutoff index) := by
  induction t generalizing cutoff with
  | idx index => rfl
  | lam body ih =>
    rw [raise, substAll, ih]
    congr 2
    funext index
    cases index with
    | zero => rw [raiseIndex_zero, under]
    | succ index =>
      rw [raiseIndex_succ]
      rfl
  | app fn arg ihf iha => rw [raise, substAll, ihf, iha]

lemma under_idx : under idx = idx := by
  funext index
  cases index <;> rfl

lemma substAll_idx (t : IndexTerm) : t.substAll idx = t := by
  induction t with
  | idx index => rfl
  | lam body ih => rw [substAll, under_idx, ih]
  | app fn arg ihf iha => rw [substAll, ihf, iha]

/-- Two raisings may be done in either order, with the later cutoff moved. -/
lemma raise_comm {m n c d : Nat} (le : c ≤ d) (t : IndexTerm) :
    (t.raise m c).raise n (d + m) = (t.raise n d).raise m c := by
  induction t generalizing c d with
  | idx index =>
    simp only [raise]
    congr 1
    split_ifs <;> omega
  | lam body ih =>
    simp only [raise]
    rw [Nat.add_right_comm, ih (Nat.succ_le_succ le)]
  | app fn arg ihf iha => simp only [raise, ihf le, iha le]

/-- Putting terms into a raised term is putting in those that its indices go to. -/
lemma substAll_raise (τ : Nat → IndexTerm) (amount cutoff : Nat) (t : IndexTerm) :
    (t.raise amount cutoff).substAll τ =
      t.substAll fun index => τ (raiseIndex amount cutoff index) := by
  induction t generalizing τ cutoff with
  | idx index => rfl
  | lam body ih =>
    rw [raise, substAll, substAll, ih]
    congr 2
    funext index
    cases index with
    | zero => rw [raiseIndex_zero, under, under]
    | succ index => rw [raiseIndex_succ, under, under]
  | app fn arg ihf iha => rw [raise, substAll, substAll, ihf, iha]

/-- A substitution commutes with a raising if what it puts in does. -/
lemma raise_substAll {τ τ' : Nat → IndexTerm} {cutoff : Nat}
    (e : ∀ index, (τ index).raise 1 cutoff = τ' (raiseIndex 1 cutoff index)) (t : IndexTerm) :
    (t.substAll τ).raise 1 cutoff = (t.raise 1 cutoff).substAll τ' := by
  induction t generalizing τ τ' cutoff with
  | idx index => exact e index
  | lam body ih =>
    rw [substAll, raise, raise, substAll, ih]
    intro index
    cases index with
    | zero =>
      rw [raiseIndex_zero, under, raise, if_pos cutoff.succ_pos]
      rfl
    | succ index =>
      rw [raiseIndex_succ, under, under, raise_comm (Nat.zero_le cutoff), e]
  | app fn arg ihf iha => rw [substAll, raise, raise, substAll, ihf e, iha e]

/-- Putting in twice is putting in once. -/
lemma substAll_substAll (σ τ : Nat → IndexTerm) (t : IndexTerm) :
    (t.substAll σ).substAll τ = t.substAll fun index => (σ index).substAll τ := by
  induction t generalizing σ τ with
  | idx index => rfl
  | lam body ih =>
    rw [substAll, substAll, substAll, ih]
    congr 2
    funext index
    cases index with
    | zero => rfl
    | succ index => exact (raise_substAll (fun _ => rfl) (σ index)).symm
  | app fn arg ihf iha => rw [substAll, substAll, substAll, ihf, iha]

/-- A substitution commutes with a contraction. -/
lemma substAll_instantiate (τ : Nat → IndexTerm) (arg body : IndexTerm) :
    (instantiate 0 arg body).substAll τ =
      instantiate 0 (arg.substAll τ) (body.substAll (under τ)) := by
  rw [instantiate_eq_substAll, instantiate_eq_substAll, substAll_substAll, substAll_substAll]
  congr 1
  funext index
  cases index with
  | zero => rw [instead_zero, under, substAll, instead_zero]
  | succ index =>
    -- The raising over the binder and the taking away of the binder cancel out.
    rw [instead_succ, under, substAll_raise]
    simp only [raiseIndex_from_zero, instead_succ]
    rw [substAll_idx, substAll]

end WeakHead.IndexTerm

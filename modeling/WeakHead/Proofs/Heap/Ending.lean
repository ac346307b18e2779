import WeakHead.Proofs.Heap.Grafting

/-!
# Walks that come to an end

A walk over a heap is followed to a bound, and `endless` says that the bound was met. A walk that
`Ends` has another outcome, which is a result or any other fault. Then the bound is not felt:
however much deeper the walk is followed, it `Stabilizes` at that outcome.
-/

namespace WeakHead

variable {α β : Type} {x : Except Fault α} {f : α → Except Fault β}

/-- The outcome is a result, or a fault for another reason than the bound of a walk. -/
def Ends (x : Except Fault α) : Prop :=
  ∀ slot, x ≠ .error (.endless slot)

/-- The outcome is that of the walk at its end, and of the walk with any bound that is large
enough. -/
def Stabilizes (walk : Nat → Except Fault α) (x : Except Fault α) : Prop :=
  Ends x ∧ ∃ bound, ∀ depth ≥ bound, walk depth = x

/-- A result is an end. -/
lemma ends_ok (a : α) : Ends (.ok a) :=
  nofun

/-- An operation ends if its first part does and then the second. -/
lemma Ends.bind (en : Ends x) (next : ∀ a, x = .ok a → Ends (f a)) : Ends (x.bind f) := by
  cases x with
  | error fault => exact fun slot e => en slot (congrArg _ (Except.error.inj e))
  | ok a => exact next a rfl

/-- What is made of an outcome is no less an end. -/
lemma Ends.map {f : α → β} (en : Ends x) : Ends (x.map f) := by
  cases x with
  | error fault => exact fun slot e => en slot (congrArg _ (Except.error.inj e))
  | ok a => exact ends_ok (f a)

/-- The parts of an operation that ends end. -/
lemma Ends.of_bind (en : Ends (x.bind f)) : Ends x ∧ ∀ a, x = .ok a → Ends (f a) := by
  cases x with
  | error fault => exact ⟨fun slot e => en slot (congrArg _ (Except.error.inj e)), nofun⟩
  | ok a =>
    refine ⟨ends_ok a, fun b e => ?_⟩
    cases e
    exact en

/-- If what is made of an outcome is an end, the outcome is one. -/
lemma Ends.of_map {f : α → β} (en : Ends (x.map f)) : Ends x := by
  cases x with
  | error fault => exact fun slot e => en slot (congrArg _ (Except.error.inj e))
  | ok a => exact ends_ok a

namespace Stabilizes

variable {walk : Nat → Except Fault α} {walk' : Nat → α → Except Fault β}

/-- What is done without a bound feels none. -/
lemma const (en : Ends x) : Stabilizes (fun _ => x) x :=
  ⟨en, 0, fun _ _ => rfl⟩

/-- The first steps may be left out. -/
lemma of_succ (st : Stabilizes (fun depth => walk (depth + 1)) x) : Stabilizes walk x := by
  obtain ⟨en, bound, eq⟩ := st
  refine ⟨en, bound + 1, fun depth le => ?_⟩
  obtain ⟨depth, rfl⟩ := Nat.exists_eq_add_of_le' (Nat.zero_lt_of_lt le)
  exact eq depth (Nat.le_of_succ_le_succ le)

/-- Two walks after each other, with a bound that is large enough for both. -/
lemma bind (st : Stabilizes walk x) (next : ∀ a, x = .ok a → Stabilizes (walk' · a) (f a)) :
    Stabilizes (fun depth => (walk depth).bind (walk' depth)) (x.bind f) := by
  obtain ⟨en, bound, eq⟩ := st
  refine ⟨en.bind fun a e => (next a e).1, ?_⟩
  cases x with
  | error fault =>
    refine ⟨bound, fun depth le => ?_⟩
    show (walk depth).bind _ = _
    rw [eq depth le]
    rfl
  | ok a =>
    -- The larger bound is large enough for both walks.
    obtain ⟨-, bound', eq'⟩ := next a rfl
    refine ⟨max bound bound', fun depth le => ?_⟩
    show (walk depth).bind _ = _
    rw [eq depth (le_of_max_le_left le)]
    exact eq' depth (le_of_max_le_right le)

/-- A walk of whose outcome something is made. -/
lemma map (st : Stabilizes walk x) (f : α → β) :
    Stabilizes (fun depth => (walk depth).map f) (x.map f) := by
  obtain ⟨en, bound, eq⟩ := st
  exact ⟨en.map, bound, fun depth le => congrArg (Except.map f) (eq depth le)⟩

end Stabilizes

namespace Heap

variable {h : Heap} {slot replacement : Slot} {node : Node} {fault : Fault} {depth : Nat}

/-- Looking up a slot ends. -/
lemma ends_get (h : Heap) (slot) : Ends (h.get slot) := by
  intro slot' e
  by_cases hs : slot < h.size
  · obtain ⟨node, hg⟩ := exists_get_of_lt hs
    cases hg.symm.trans e
  · cases (get_eq_error_of_le (Nat.le_of_not_lt hs)).symm.trans e

/-- The fault of a lookup is an end. -/
lemma ends_of_get_error (hg : h.get slot = .error fault) : Ends (.error fault : Except Fault α) :=
  fun slot' e => ends_get h slot slot' (by rw [hg, Except.error.inj e])

/-- Counting a binder ends. -/
lemma ends_crossBinder (count : Nat) : Ends (crossBinder count) := by
  intro slot e
  unfold crossBinder at e
  split at e <;> cases e

/-- Moving an index ends. -/
lemma ends_moveIndex (slot index amount) : Ends (moveIndex slot index amount) := by
  intro slot' e
  unfold moveIndex at e
  simp only at e
  split at e <;> cases e

/-- Copying one node over another ends. -/
lemma ends_copyOver (h : Heap) (target source) : Ends (h.copyOver target source) := by
  intro slot e
  unfold copyOver at e
  cases hg : h.get source with
  | error fault =>
    rw [hg] at e
    exact ends_of_get_error (α := Heap) hg slot e
  | ok node =>
    rw [hg] at e
    simp only at e
    split at e <;> cases e

/-! ### Shifts -/

/-- A shift fails at a slot that cannot be looked up. -/
lemma shiftWithin_error (hg : h.get slot = .error fault) (depth cutoff amount) :
    shiftWithin (depth + 1) h slot cutoff amount = .error fault := by
  rw [shiftWithin, hg]
  rfl

/-- A named node is no index and no part of a term with indices. -/
lemma shiftWithin_named (hg : h.get slot = .ok node)
    (hn : (∃ name, node = .var name) ∨ ∃ binder body, node = .abs binder body)
    (depth cutoff amount) :
    shiftWithin (depth + 1) h slot cutoff amount = .error (.namedInShift node) := by
  rw [shiftWithin, hg]
  rcases hn with ⟨name, rfl⟩ | ⟨binder, body, rfl⟩ <;> rfl

/-- A shift that has ended has the same outcome with any larger bound. -/
lemma shiftWithin_stabilizes {cutoff amount} (en : Ends (shiftWithin depth h slot cutoff amount)) :
    Stabilizes (fun d => shiftWithin d h slot cutoff amount)
      (shiftWithin depth h slot cutoff amount) := by
  induction depth generalizing h slot cutoff with
  | zero => exact absurd rfl (en slot)
  | succ depth ih =>
    refine .of_succ ?_
    cases hg : h.get slot with
    | error fault =>
      simp only [shiftWithin_error hg] at en ⊢
      exact .const en
    | ok node =>
      cases node with
      | idx index =>
        simp only [shiftWithin_idx hg] at en ⊢
        exact .const en
      | lam body =>
        -- The counter of binders does not depend on the bound, and the body is walked with less.
        simp only [shiftWithin_lam hg] at en ⊢
        obtain ⟨en, next⟩ := en.of_bind
        exact (Stabilizes.const en).bind fun inner e => ih (next inner e)
      | app fn arg =>
        simp only [shiftWithin_app hg] at en ⊢
        obtain ⟨en, next⟩ := en.of_bind
        exact (ih en).bind fun h₁ e => ih (next h₁ e)
      | var name =>
        simp only [shiftWithin_named hg (.inl ⟨name, rfl⟩)] at en ⊢
        exact .const en
      | abs binder body =>
        simp only [shiftWithin_named hg (.inr ⟨binder, body, rfl⟩)] at en ⊢
        exact .const en

/-! ### Copies -/

/-- Copying fails at a slot that cannot be looked up. -/
lemma copyWithin_error (hg : h.get slot = .error fault) (depth) :
    copyWithin (depth + 1) h slot = .error fault := by
  rw [copyWithin, hg]
  rfl

/-- A copy that has ended has the same outcome with any larger bound. -/
lemma copyWithin_stabilizes (en : Ends (copyWithin depth h slot)) :
    Stabilizes (fun d => copyWithin d h slot) (copyWithin depth h slot) := by
  induction depth generalizing h slot with
  | zero => exact absurd rfl (en slot)
  | succ depth ih =>
    refine .of_succ ?_
    cases hg : h.get slot with
    | error fault =>
      simp only [copyWithin_error hg] at en ⊢
      exact .const en
    | ok node =>
      rcases node.parts_cases with hp | ⟨part, hp⟩ | ⟨fn, arg, rfl⟩
      · simp only [copyWithin_leaf hg hp] at en ⊢
        exact .const en
      · simp only [copyWithin_one hg hp] at en ⊢
        exact (ih en.of_map).map _
      · simp only [copyWithin_app hg] at en ⊢
        obtain ⟨en, next⟩ := en.of_bind
        exact (ih en).bind fun c e => (ih (next c e).of_map).map _

/-! ### Substitutions -/

/-- A substitution fails at a slot that cannot be looked up. -/
lemma substituteAt_error (hg : h.get slot = .error fault) (replacement descend level crossed) :
    substituteAt replacement descend h slot level crossed = .error fault := by
  rw [substituteAt, hg]
  rfl

/-- A substitution fails at the node of a named term. -/
lemma substituteAt_named (hg : h.get slot = .ok node)
    (hn : (∃ name, node = .var name) ∨ ∃ binder body, node = .abs binder body)
    (replacement descend level crossed) :
    substituteAt replacement descend h slot level crossed =
      .error (.namedInSubstitution node) := by
  rw [substituteAt, hg]
  rcases hn with ⟨name, rfl⟩ | ⟨binder, body, rfl⟩ <;> rfl

/-- One turn of a substitution feels no bound if the turns below it feel none. -/
lemma substituteAt_stabilizes {descend : Heap → Slot → Nat → Nat → Except Fault Heap}
    {walk : Nat → Heap → Slot → Nat → Nat → Except Fault Heap}
    (st : ∀ h slot level crossed, Ends (descend h slot level crossed) →
      Stabilizes (fun d => walk d h slot level crossed) (descend h slot level crossed))
    {level crossed}
    (en : Ends (substituteAt replacement descend h slot level crossed)) :
    Stabilizes (fun d => substituteAt replacement (walk d) h slot level crossed)
      (substituteAt replacement descend h slot level crossed) := by
  cases hg : h.get slot with
  | error fault =>
    simp only [substituteAt_error hg] at en ⊢
    exact .const en
  | ok node =>
    cases node with
    | idx index =>
      simp only [substituteAt_idx hg] at en ⊢
      exact .const en
    | lam body =>
      simp only [substituteAt_lam hg] at en ⊢
      obtain ⟨en, next⟩ := en.of_bind
      exact (Stabilizes.const en).bind fun inner e => st _ _ _ _ (next inner e)
    | app fn arg =>
      simp only [substituteAt_app hg] at en ⊢
      obtain ⟨en, next⟩ := en.of_bind
      exact (st _ _ _ _ en).bind fun h₁ e => st _ _ _ _ (next h₁ e)
    | var name =>
      simp only [substituteAt_named hg (.inl ⟨name, rfl⟩)] at en ⊢
      exact .const en
    | abs binder body =>
      simp only [substituteAt_named hg (.inr ⟨binder, body, rfl⟩)] at en ⊢
      exact .const en

/-- A substitution that has ended has the same outcome with any larger bound. -/
lemma substituteWithin_stabilizes {level crossed}
    (en : Ends (substituteWithin replacement depth h slot level crossed)) :
    Stabilizes (fun d => substituteWithin replacement d h slot level crossed)
      (substituteWithin replacement depth h slot level crossed) := by
  induction depth generalizing h slot level crossed with
  | zero => exact absurd rfl (en slot)
  | succ depth ih =>
    refine .of_succ ?_
    simp only [substituteWithin_succ] at en ⊢
    exact substituteAt_stabilizes (fun _ _ _ _ en => ih en) en

/-- The two bounds of a substitution make no difference to the plain walk. -/
lemma substituteAmongOld_stabilizes {old level crossed}
    (en : Ends (substituteAmongOld replacement old depth h slot level crossed)) :
    Stabilizes (fun d => substituteWithin replacement d h slot level crossed)
      (substituteAmongOld replacement old depth h slot level crossed) := by
  induction depth generalizing h slot level crossed with
  | zero => exact absurd rfl (en slot)
  | succ depth ih =>
    by_cases hlt : slot < old
    · refine .of_succ ?_
      simp only [substituteAmongOld_of_lt hlt, substituteWithin_succ] at en ⊢
      exact substituteAt_stabilizes (fun _ _ _ _ en => ih en) en
    · -- Here the walk goes over to a bound of its own, which is not felt either.
      rw [substituteAmongOld_of_not_lt hlt] at en ⊢
      exact substituteWithin_stabilizes en

/-! ### The way along the spine -/

/-- At an application the search looks at its function, and goes on there unless it is an
abstraction. -/
lemma headRedexWithin_app_eq {fn arg} (hg : h.get slot = .ok (.app fn arg)) (depth) :
    h.headRedexWithin (depth + 1) slot = (h.get fn).bind fun
      | .lam body => .ok (some ⟨slot, body, arg⟩)
      | _ => h.headRedexWithin depth fn := by
  simp only [headRedexWithin, hg]
  show (h.get fn >>= _) = _
  cases h.get fn with
  | error fault => rfl
  | ok node => cases node <;> rfl

/-- Only an application is not the end of the spine. -/
lemma headRedexWithin_of_ne_app (hn : ∀ fn arg, h.get slot ≠ .ok (.app fn arg)) :
    ∃ x, Ends x ∧ ∀ depth, h.headRedexWithin (depth + 1) slot = x := by
  cases hg : h.get slot with
  | error fault =>
    refine ⟨_, ends_of_get_error hg, fun depth => ?_⟩
    rw [headRedexWithin, hg]
    rfl
  | ok node =>
    cases node with
    | app fn arg => exact absurd hg (hn fn arg)
    | idx index => exact ⟨_, ends_ok none, headRedexWithin_idx hg⟩
    | lam body => exact ⟨_, ends_ok none, headRedexWithin_abs hg⟩
    | var name =>
      refine ⟨.error (.namedOnSpine slot (.var name)), by simp [Ends], fun depth => ?_⟩
      rw [headRedexWithin, hg]
      rfl
    | abs binder body =>
      refine ⟨.error (.namedOnSpine slot (.abs binder body)), by simp [Ends], fun depth => ?_⟩
      rw [headRedexWithin, hg]
      rfl

/-- A search that has ended has the same outcome with any larger bound. -/
lemma headRedexWithin_stabilizes (en : Ends (h.headRedexWithin depth slot)) :
    Stabilizes (fun d => h.headRedexWithin d slot) (h.headRedexWithin depth slot) := by
  induction depth generalizing slot with
  | zero => exact absurd rfl (en slot)
  | succ depth ih =>
    refine .of_succ ?_
    by_cases ha : ∃ fn arg, h.get slot = .ok (.app fn arg)
    · obtain ⟨fn, arg, hg⟩ := ha
      simp only [headRedexWithin_app_eq hg] at en ⊢
      obtain ⟨en, next⟩ := en.of_bind
      refine (Stabilizes.const en).bind fun node e => ?_
      cases node with
      | lam body => exact .const (ends_ok _)
      | _ => exact ih (next _ e)
    · obtain ⟨x, enx, eq⟩ := headRedexWithin_of_ne_app fun fn arg hg => ha ⟨fn, arg, hg⟩
      simp only [eq]
      exact .const enx

end Heap

end WeakHead

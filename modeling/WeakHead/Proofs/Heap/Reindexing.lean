import WeakHead.Proofs.Heap.Ending

/-!
# Operations on heaps with other indices

Where two heaps have the same nodes but for indices, whatever does not look at indices does the same
to both: it takes the same ways, appends in the same slots, and leaves heaps that again have the
same nodes but for indices. A shift looks at indices and may change other ones on either side; since
it changes nothing else, that is no difference here.
-/

namespace WeakHead

namespace Heap

variable {h h' g g' : Heap} {slot x y copied copied' replacement : Slot} {node node' : Node}
  {depth crossed : Nat}

namespace Reindexed

/-- What can be read in one of the heaps can be read in the other, and neither can what cannot. -/
lemma get_eq_error (re : Reindexed h g) {fault} (e : h.get x = .error fault) :
    g.get x = .error fault := by
  have le : h.size ≤ x := by
    by_contra lt
    obtain ⟨node, hg⟩ := exists_get_of_lt (Nat.lt_of_not_le lt)
    cases e.symm.trans hg
  rw [get_eq_error_of_le (re.size_eq.trans_le le), re.size_eq, ← get_eq_error_of_le le, e]

lemma push (re : Reindexed h g) (same : node.SameButIndex node') :
    Reindexed (h.push node) (g.push node') := by
  refine ⟨fun x node₁ hg => ?_, by rw [size_push, size_push, re.size_eq]⟩
  have lt := lt_size_of_get_eq_ok hg
  rw [size_push] at lt
  cases Nat.lt_succ_iff_lt_or_eq.1 lt with
  | inl lt =>
    rw [get_push_of_lt node lt] at hg
    rw [get_push_of_lt node' (re.size_eq ▸ lt)]
    exact re.get hg
  | inr e =>
    subst e
    cases hg.symm.trans (get_push_size h node)
    rw [← re.size_eq, get_push_size]
    rcases same with rfl | ⟨i, j, rfl, rfl⟩
    · exact .inl rfl
    · exact .inr ⟨i, j, rfl, rfl⟩

lemma put (re : Reindexed h g) (hg : h.get y = .ok node) (hg' : g.get y = .ok node') (x) :
    Reindexed (h.put x node) (g.put x node') := by
  refine ⟨fun z node₁ hz => ?_, by rw [size_put, size_put, re.size_eq]⟩
  by_cases ez : z = x
  · subst ez
    have lt := lt_size_of_get_eq_ok hz
    rw [size_put] at lt
    cases hz.symm.trans (get_put_self node lt)
    rw [get_put_self node' (re.size_eq ▸ lt), ← hg']
    exact re.get hg
  · rw [get_put_of_ne node ez] at hz
    rw [get_put_of_ne node' ez]
    exact re.get hz

/-- Two shifts, whatever they move. -/
lemma shift (re : Reindexed h g) {slot slot' cutoff cutoff' amount amount'}
    (e : h.shift slot cutoff amount = .ok h') (e' : g.shift slot' cutoff' amount' = .ok g') :
    Reindexed h' g' :=
  (reindexed_of_shift e).symm.trans (re.trans (reindexed_of_shift e'))

/-- Copies are built in the same slots. -/
lemma copyWithin (re : Reindexed h g) (e : copyWithin depth h slot = .ok (h', copied))
    (e' : copyWithin depth g slot = .ok (g', copied')) : Reindexed h' g' ∧ copied' = copied := by
  induction depth generalizing h g h' g' slot copied copied' with
  | zero => cases e
  | succ depth ih =>
    cases hg : h.get slot with
    | error fault =>
      rw [copyWithin_error hg] at e
      cases e
    | ok node =>
      obtain ⟨node', hg', same⟩ := re.exists_get hg
      rcases node.parts_cases with hp | ⟨part, hp⟩ | ⟨fn, arg, rfl⟩
      · rw [copyWithin_leaf hg hp] at e
        rw [copyWithin_leaf hg' (same.parts_eq.trans hp)] at e'
        cases e
        cases e'
        exact ⟨re.push same, re.size_eq⟩
      · -- Only indices may differ, and they have no parts.
        obtain rfl : node' = node := same.resolve_right fun ⟨i, _, e, _⟩ => by
          rw [e] at hp
          cases hp
        rw [copyWithin_one hg hp] at e
        rw [copyWithin_one hg' hp] at e'
        obtain ⟨⟨h₁, fresh⟩, e₁, e⟩ := map_eq_ok_iff.1 e
        obtain ⟨⟨g₁, fresh'⟩, e₁', e'⟩ := map_eq_ok_iff.1 e'
        obtain ⟨re₁, rfl⟩ := ih re e₁ e₁'
        cases e
        cases e'
        exact ⟨re₁.push (.inl rfl), re₁.size_eq⟩
      · rw [copyWithin_app hg] at e
        rw [copyWithin_app (re.get_app hg)] at e'
        obtain ⟨⟨h₁, freshF⟩, e₁, e⟩ := bind_eq_ok_iff.1 e
        obtain ⟨⟨g₁, freshF'⟩, e₁', e'⟩ := bind_eq_ok_iff.1 e'
        obtain ⟨⟨h₂, freshA⟩, e₂, e⟩ := map_eq_ok_iff.1 e
        obtain ⟨⟨g₂, freshA'⟩, e₂', e'⟩ := map_eq_ok_iff.1 e'
        obtain ⟨re₁, rfl⟩ := ih re e₁ e₁'
        obtain ⟨re₂, rfl⟩ := ih re₁ e₂ e₂'
        cases e
        cases e'
        exact ⟨re₂.push (.inl rfl), re₂.size_eq⟩

/-- A copy in the place of the same variable. -/
lemma replaceByCopy (re : Reindexed h g)
    (e : h.replaceByCopy slot replacement crossed = .ok h')
    (e' : g.replaceByCopy slot replacement crossed = .ok g') : Reindexed h' g' := by
  rw [replaceByCopy_eq, bind_eq_ok_iff] at e e'
  obtain ⟨⟨h₁, copied⟩, e₁, e⟩ := e
  obtain ⟨⟨g₁, copied'⟩, e₁', e'⟩ := e'
  rw [copy, re.depthBound_eq] at e₁'
  obtain ⟨re₁, rfl⟩ := re.copyWithin e₁ e₁'
  obtain ⟨h₂, e₂, e⟩ := bind_eq_ok_iff.1 e
  obtain ⟨g₂, e₂', e'⟩ := bind_eq_ok_iff.1 e'
  have re₂ : Reindexed h₂ g₂ := by
    by_cases hc : crossed = 0
    · rw [if_pos hc] at e₂ e₂'
      cases e₂
      cases e₂'
      exact re₁
    · rw [if_neg hc] at e₂ e₂'
      exact re₁.shift e₂ e₂'
  obtain ⟨node, hg, -, rfl⟩ := copyOver_eq_ok_iff.1 e
  obtain ⟨node', hg', -, rfl⟩ := copyOver_eq_ok_iff.1 e'
  exact re₂.put hg hg' slot

/-- The search for a redex looks at no index. -/
lemma headRedexWithin_eq (re : Reindexed h g) (depth slot) :
    g.headRedexWithin depth slot = h.headRedexWithin depth slot := by
  induction depth generalizing slot with
  | zero => rfl
  | succ depth ih =>
    cases hg : h.get slot with
    | error fault =>
      rw [headRedexWithin, headRedexWithin, hg, re.get_eq_error hg]
      rfl
    | ok node =>
      cases node with
      | app fn arg =>
        rw [headRedexWithin_app_eq hg, headRedexWithin_app_eq (re.get_app hg)]
        cases hf : h.get fn with
        | error fault =>
          rw [re.get_eq_error hf]
          rfl
        | ok node =>
          obtain ⟨node', hf', rfl | ⟨i, j, rfl, rfl⟩⟩ := re.exists_get hf
          · simp only [hf', ih]
          · rw [hf']
            exact ih fn
      | idx index =>
        rcases re.get hg with hg' | ⟨_, j, -, hg'⟩ <;>
          rw [headRedexWithin_idx hg, headRedexWithin_idx hg']
      | _ =>
        rw [headRedexWithin, headRedexWithin, hg, re.get_eq_of_ne_idx hg (by simp)]
        rfl

lemma headRedex_eq (re : Reindexed h g) (slot) : g.headRedex slot = h.headRedex slot := by
  rw [headRedex, headRedex, re.depthBound_eq]
  exact re.headRedexWithin_eq _ slot

end Reindexed

end Heap

end WeakHead

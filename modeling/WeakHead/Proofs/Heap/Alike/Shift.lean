import WeakHead.Proofs.Heap.Alike
import WeakHead.Proofs.Heap.Development
import WeakHead.Proofs.Heap.Shift

/-!
# Shifting in heaps that look alike

A shift meets related slots in the same order on both sides, those with several paths to them as
often, so it does the same to both. It goes no deeper than the term that it begins with is high.
-/

namespace WeakHead

/-- An index is moved to the same value, or out of the range at both slots. -/
lemma agree_moveIndex (x y : Slot) (index amount) :
    Agree Eq (moveIndex x index amount) (moveIndex y index amount) := by
  simp only [moveIndex]
  split
  · exact .ok rfl
  · exact .error (.indexOutside x y index amount)

/-- Counting one more binder is the same everywhere. -/
lemma agree_crossBinder (count) : Agree Eq (crossBinder count) (crossBinder count) := by
  unfold crossBinder
  split
  · exact .ok rfl
  · exact .error .tooManyBinders

namespace Heap

variable {R : Slot → Slot → Prop} {h h' : Heap} {x y : Slot} {t : IndexTerm} {depth depth' : Nat}

/-- Walks of a shift agree, and leave heaps that look alike. -/
lemma Alike.shiftWithin (al : Alike R h h') (r : R x y) (un : h.Unfolds x t)
    (hd : t.height ≤ depth) (hd' : t.height ≤ depth') (cutoff amount) :
    Agree (Alike R) (shiftWithin depth h x cutoff amount)
      (shiftWithin depth' h' y cutoff amount) := by
  -- A part may stand for another term when its turn comes, but for one of the same height.
  induction depth generalizing h h' x y t depth' cutoff with
  | zero => exact absurd hd (Nat.not_le_of_lt t.height_pos)
  | succ depth ih =>
    obtain ⟨depth', rfl⟩ := IndexTerm.depth_eq_succ hd'
    cases un with
    | @idx _ index hg =>
      have hg' := al.get_idx r hg
      rw [shiftWithin_idx hg, shiftWithin_idx hg']
      split
      · refine (agree_moveIndex x y index amount).map fun moved moved' e => ?_
        cases e
        exact al.put r (.idx moved)
      · exact .ok al
    | lam hg unb =>
      obtain ⟨_, hg', rb⟩ := al.get_lam r hg
      rw [shiftWithin_lam hg, shiftWithin_lam hg']
      refine (agree_crossBinder cutoff).bind fun cutoff cutoff' e => ?_
      cases e
      exact ih al rb unb (Nat.le_of_succ_le_succ hd) (Nat.le_of_succ_le_succ hd') cutoff
    | app hg unf una =>
      have hd := Nat.le_of_succ_le_succ hd
      have hd' := Nat.le_of_succ_le_succ hd'
      obtain ⟨_, _, hg', rf, ra⟩ := al.get_app r hg
      rw [shiftWithin_app hg, shiftWithin_app hg']
      refine (ih al rf unf (le_of_max_le_left hd) (le_of_max_le_left hd') cutoff).with_eq.bind ?_
      intro h₁ h₁' ⟨e₁, _, al₁⟩
      obtain ⟨u, una', e⟩ := (reindexed_of_shiftWithin e₁).exists_unfolds una
      rw [← e] at hd hd'
      exact ih al₁ ra una' (le_of_max_le_right hd) (le_of_max_le_right hd') cutoff

/-- Shifts at related slots agree, and change nothing but indices. -/
lemma Alike.shift (al : Alike R h h') (r : R x y) (un : h.Unfolds x t) (cutoff amount) :
    Agree (fun h₁ h₁' => Alike R h₁ h₁' ∧ Reindexed h h₁) (h.shift x cutoff amount)
      (h'.shift y cutoff amount) :=
  (al.shiftWithin r un (un.height_le.trans (Nat.le_add_right _ _))
    ((al.unfolds un r).height_le.trans (Nat.le_add_right _ _)) cutoff amount).with_eq.imp
    fun _ _ ⟨e, _, al'⟩ => ⟨al', reindexed_of_shift e⟩

end Heap

end WeakHead

import WeakHead.Proofs.Heap.Exactness

/-!
# Shifts one after the other

A shift up takes no index back under the cutoff, so a second shift at that cutoff meets the indices
that the first has moved, and no others. The two are then one shift by the sum of the amounts: it
ends where the second ends, and in the same heap, since a heap is determined by its paths, the term
of the tree and the slots outside (`TreeAt.heap_eq`).

Main statement: `shifts_compose`.
-/

namespace WeakHead.Heap

variable {h h' h'' : Heap} {slot : Slot} {t : IndexTerm} {S : Finset Slot} {cutoff : Nat}
  {a b amount : Int}

/-- There is one heap only that a shift can make of a tree. -/
lemma Shifted.unique (sh : Shifted h h' slot t S cutoff amount)
    (sh' : Shifted h h'' slot t S cutoff amount) (re : Reindexed h' h'') : h'' = h' := by
  refine sh.tree.heap_eq sh'.tree.unfolds re fun x hx => ?_
  rw [sh'.keeps.get_eq_of_size_eq sh'.size_eq hx, sh.keeps.get_eq_of_size_eq sh.size_eq hx]

lemma TreeAt.shifted_zero (tr : h.TreeAt slot t S) (cutoff : Nat) :
    Shifted h h slot t S cutoff 0 := by
  refine ⟨?_, .refl h S, rfl⟩
  have e := t.shiftBy_natCast 0 cutoff
  rw [IndexTerm.raise_zero] at e
  exact e.symm ▸ tr

/-- What was shifted by one amount is shifted by another if the whole is shifted by the sum. -/
lemma Shifted.then_iff (sh : Shifted h h' slot t S cutoff a) (ha : 0 ≤ a) :
    Shifted h' h'' slot (t.shiftBy a cutoff) S cutoff b ↔
      Shifted h h'' slot t S cutoff (a + b) := by
  have et := t.shiftBy_shiftBy ha b cutoff
  constructor
  · intro sh'
    exact ⟨et ▸ sh'.tree, sh.keeps.trans sh'.keeps (.refl S _), sh'.size_eq.trans sh.size_eq⟩
  · intro sum
    have back := sh.keeps.symm sh.size_eq
    exact ⟨et.symm ▸ sum.tree, back.trans sum.keeps (.refl S _), sum.size_eq.trans sh.size_eq.symm⟩

/-- A shift of a tree succeeds exactly with the heap in which the tree is shifted. -/
lemma TreeAt.shift_eq_ok_iff (tr : h.TreeAt slot t S) :
    h.shift slot cutoff amount = .ok h' ↔
      t.Shiftable amount cutoff ∧ Shifted h h' slot t S cutoff amount ∧ Reindexed h h' := by
  constructor
  · intro e
    exact ⟨tr.exists_shift_iff.1 ⟨h', e⟩, tr.shifted e, reindexed_of_shift e⟩
  · rintro ⟨fit, sh, re⟩
    obtain ⟨h₁, e⟩ := tr.exists_shift_iff.2 fit
    rwa [(tr.shifted e).unique sh ((reindexed_of_shift e).symm.trans re)]

/-- A shift up of a tree, and any shift behind it at the same cutoff, are the shift by the sum of
the amounts: they succeed together and with the same heap. So a shift up by some amount and down by
it restores every slot. -/
theorem shifts_compose (un : h.Unfolds slot t) (sp : h.SpansTree slot) (ha : 0 ≤ a)
    (e : h.shift slot cutoff a = .ok h') :
    (∀ b h'', h'.shift slot cutoff b = .ok h'' ↔ h.shift slot cutoff (a + b) = .ok h'') ∧
      h'.shift slot cutoff (-a) = .ok h := by
  obtain ⟨S, tr⟩ := un.treeAt sp
  have fit := tr.exists_shift_iff.1 ⟨h', e⟩
  have sh := tr.shifted e
  have re := reindexed_of_shift e
  have composed : ∀ b h'',
      h'.shift slot cutoff b = .ok h'' ↔ h.shift slot cutoff (a + b) = .ok h'' := by
    intro b h''
    rw [sh.tree.shift_eq_ok_iff, tr.shift_eq_ok_iff, IndexTerm.shiftable_shiftBy_iff ha,
      sh.then_iff ha]
    exact and_congr_right fun _ => and_congr_right fun _ => ⟨re.trans, re.symm.trans⟩
  refine ⟨composed, (composed (-a) h).2 ?_⟩
  rw [Int.add_right_neg, tr.shift_eq_ok_iff]
  exact ⟨fit.of_le (Int.le_refl 0) ha, tr.shifted_zero cutoff, .refl h⟩

/-- Under its binder `(λ ((0 1) 5))` has the free variables 1 and 5. -/
theorem shifts_compose_under_binder :
    ∃ h' h'', boundAndFree.shift 6 0 3 = .ok h' ∧ h'.shift 6 0 (-4) = .ok h'' ∧
      boundAndFree.shift 6 0 (3 + -4) = .ok h'' ∧ h'.shift 6 0 (-3) = .ok boundAndFree := by
  have up : (boundAndFree.shift 6 0 3).map size = .ok 7 := by decide +kernel
  have down : (boundAndFree.shift 6 0 (3 + -4)).map size = .ok 7 := by decide +kernel
  obtain ⟨h', e, -⟩ := map_eq_ok_iff.1 up
  obtain ⟨h'', e', -⟩ := map_eq_ok_iff.1 down
  obtain ⟨composed, restored⟩ := shifts_compose boundAndFree_postAt.tree.unfolds
    boundAndFree_postAt.tree.spansTree (by decide) e
  exact ⟨h', h'', e, (composed _ h'').2 e', e', restored⟩

end WeakHead.Heap

import WeakHead.Heap.Substitution
import WeakHead.Proofs.Heap.Building
import WeakHead.Proofs.Heap.Shift

/-!
# Substitution in a tree

Where the term and what replaces its variables stand in trees apart from each other, substitution in
place does to the term what `putCopies` does. The walk never enters what it has put in: the slots of
a tree are older than the walk, and a replaced slot is not met again. So the copies are trees of
their own, apart from each other, from the rest of the term and from what was copied.
-/

namespace WeakHead.Heap

lemma substituteAt_idx {h : Heap} {slot index} (hg : h.get slot = .ok (.idx index))
    (replacement descend level crossed) :
    substituteAt replacement descend h slot level crossed =
      if index = level then h.replaceByCopy slot replacement crossed else .ok h := by
  rw [substituteAt, hg]
  rfl

lemma substituteAt_lam {h : Heap} {slot body} (hg : h.get slot = .ok (.lam body))
    (replacement descend level crossed) :
    substituteAt replacement descend h slot level crossed =
      (crossBinder level).bind fun level => descend h body level (crossed + 1) := by
  rw [substituteAt, hg]
  rfl

lemma substituteAt_app {h : Heap} {slot fn arg} (hg : h.get slot = .ok (.app fn arg))
    (replacement descend level crossed) :
    substituteAt replacement descend h slot level crossed =
      (descend h fn level crossed).bind fun h => descend h arg level crossed := by
  rw [substituteAt, hg]
  rfl

/-- A slot that is older than the walk is treated as any slot. -/
lemma substituteAmongOld_of_lt {slot old : Slot} (hlt : slot < old)
    (replacement depth h level crossed) :
    substituteAmongOld replacement old (depth + 1) h slot level crossed =
      substituteAt replacement (substituteAmongOld replacement old depth) h slot level crossed := by
  rw [substituteAmongOld, if_pos hlt]

/-- What a substitution makes of a heap with a tree: copies of `expr` over the variables of `t`. -/
structure Substituted (h h' : Heap) (slot : Slot) (t : IndexTerm) (S : Finset Slot)
    (expr : IndexTerm) (level crossed : Nat) : Prop where
  tree : ∃ S', h'.TreeAt slot (IndexTerm.putCopies expr level crossed t) S' ∧ Within S' S h.size
  keeps : Keeps h h' S

/-! ### One occurrence -/

/-- The three passes of a replacement: copy, raise the copy, move its root. -/
lemma replaceByCopy_eq (h : Heap) (slot replacement crossed) :
    h.replaceByCopy slot replacement crossed =
      (h.copy replacement).bind fun (h, copied) =>
        (if crossed = 0 then .ok h else h.shift copied 0 crossed).bind fun h =>
          h.copyOver slot copied := by
  rw [replaceByCopy]
  cases h.copy replacement with
  | error fault => rfl
  | ok c =>
    by_cases hc : crossed = 0
    · simp only [hc, if_true]
      rfl
    · simp only [hc, if_false]
      rfl

/-- A copy is raised unless no binder was crossed; then there is nothing to raise. Either way the
raised term has been built. -/
lemma Built.raise {h h' : Heap} {copied u} (bt : Built h h' copied u) {crossed : Nat}
    (fit : crossed ≠ 0 → u.Shiftable crossed 0) :
    ∃ h'', (if crossed = 0 then .ok h' else h'.shift copied 0 crossed) = .ok h'' ∧
      Built h h'' copied (u.raise crossed 0) := by
  by_cases hc : crossed = 0
  · subst hc
    rw [IndexTerm.raise_zero]
    exact ⟨h', rfl, bt⟩
  · obtain ⟨h'', e⟩ := bt.tree.exists_shift_iff.2 (fit hc)
    have sh := bt.tree.shifted e
    have tr := sh.tree
    rw [IndexTerm.shiftBy_natCast] at tr
    have new : Within (Finset.Ico h.size h'.size) ∅ h.size := fun x hm =>
      .inr (Finset.mem_Ico.1 hm).1
    refine ⟨h'', if_neg hc ▸ e, bt.post.reindexed (reindexed_of_shift e) tr.unfolds,
      bt.keeps.trans sh.keeps new, ?_⟩
    rw [sh.size_eq]
    exact bt.root_eq

/-- To replace a slot by a copy is to build the raised term and to put its root into the slot. -/
lemma Unfolds.replaceByCopy_built {h : Heap} {slot replacement u} {crossed : Nat}
    (un : h.Unfolds replacement u) (hd : u.height ≤ h.depthBound) (hlt : slot < h.size)
    (fit : crossed ≠ 0 → u.Shiftable crossed 0) :
    ∃ hc copied node, Built h hc copied (u.raise crossed 0) ∧ hc.get copied = .ok node ∧
      h.replaceByCopy slot replacement crossed = .ok (hc.put slot node) := by
  obtain ⟨h₁, copied, e₁, bt₁⟩ := un.copyWithin_ok hd
  obtain ⟨h₂, e₂, bt₂⟩ := bt₁.raise fit
  obtain ⟨node, hg⟩ := bt₂.tree.exists_node
  refine ⟨h₂, copied, node, bt₂, hg, ?_⟩
  rw [replaceByCopy_eq]
  refine bind_eq_ok_iff.2 ⟨_, e₁, bind_eq_ok_iff.2 ⟨h₂, e₂, ?_⟩⟩
  exact copyOver_eq_ok_iff.2 ⟨node, hg, hlt.trans_le bt₂.keeps.size_le, rfl⟩

/-- A slot can be replaced by a copy of a term, which then stands there as a tree. -/
lemma Unfolds.replaceByCopy_ok {h : Heap} {slot replacement u} {crossed : Nat}
    (un : h.Unfolds replacement u) (hd : u.height ≤ h.depthBound) (hlt : slot < h.size)
    (fit : crossed ≠ 0 → u.Shiftable crossed 0) :
    ∃ h', h.replaceByCopy slot replacement crossed = .ok h' ∧ Keeps h h' {slot} ∧
      (∃ S', h'.TreeAt slot (u.raise crossed 0) S' ∧ Within S' {slot} h.size) ∧
      ∃ copied, h'.TreeAt copied (u.raise crossed 0) (Finset.Ico h.size h'.size) := by
  obtain ⟨hc, copied, node, bt, hg, e⟩ := un.replaceByCopy_built hd hlt fit
  -- All slots of the copy are new, and so the slot that is replaced is none of them.
  have hout : slot ∉ Finset.Ico h.size hc.size := fun hm =>
    absurd hlt (Nat.not_lt.2 (Finset.mem_Ico.1 hm).1)
  have kp := keeps_put hc slot node (Finset.mem_singleton_self slot)
  refine ⟨_, e, ?_, ⟨_, bt.tree.moveRoot hg (hlt.trans_le bt.keeps.size_le) hout, ?_⟩, copied, ?_⟩
  · exact (bt.keeps.mono (Finset.empty_subset {slot})).trans kp (.refl _ _)
  · intro x hm
    cases Finset.mem_insert.1 hm with
    | inl e => exact .inl (Finset.mem_singleton.2 e)
    | inr hm => exact .inr (Finset.mem_Ico.1 (Finset.mem_of_mem_erase hm)).1
  · rw [size_put]
    exact bt.tree.frame kp (Finset.disjoint_singleton_right.2 hout)

/-- A copy that was put in under binders could be raised over them. -/
lemma Unfolds.shiftable_of_replaceByCopy {h h' : Heap} {slot replacement u} {crossed : Nat}
    (un : h.Unfolds replacement u) (hd : u.height ≤ h.depthBound)
    (e : h.replaceByCopy slot replacement crossed = .ok h') :
    crossed ≠ 0 → u.Shiftable crossed 0 := by
  intro hc
  obtain ⟨h₁, copied, e₁, bt⟩ := un.copyWithin_ok hd
  rw [replaceByCopy_eq, copy, e₁, bind_eq_ok_iff] at e
  obtain ⟨_, e₁', e⟩ := e
  cases e₁'
  obtain ⟨h₂, e₂, -⟩ := bind_eq_ok_iff.1 e
  rw [if_neg hc] at e₂
  exact bt.tree.exists_shift_iff.1 ⟨h₂, e₂⟩

/-! ### The whole walk -/

/-- Copies that fit are put in. -/
lemma TreeAt.substituteAmongOld_ok {h : Heap} {slot t S replacement u E old depth}
    {level crossed : Nat} (tr : h.TreeAt slot t S) (trE : h.TreeAt replacement u E)
    (dis : Disjoint S E) (hold : ∀ x ∈ S, x < old) (hd : t.height ≤ depth)
    (fit : IndexTerm.CopiesFit u level crossed t) :
    ∃ h', substituteAmongOld replacement old depth h slot level crossed = .ok h' ∧
      Substituted h h' slot t S u level crossed := by
  induction t generalizing h slot S depth level crossed with
  | idx index =>
    obtain ⟨depth, rfl⟩ := IndexTerm.depth_eq_succ hd
    rw [substituteAmongOld_of_lt (hold _ tr.root_mem)]
    cases tr with
    | idx hg =>
      rw [substituteAt_idx hg]
      by_cases hl : index = level
      · obtain ⟨h', e, kp, ⟨S', tr', w⟩, -⟩ :=
          trE.unfolds.replaceByCopy_ok trE.height_le (lt_size_of_get_eq_ok hg) (fit hl)
        rw [if_pos hl]
        refine ⟨h', e, ⟨S', ?_, w⟩, kp⟩
        rwa [IndexTerm.putCopies, if_pos hl]
      · rw [if_neg hl]
        refine ⟨h, rfl, ⟨_, ?_, .refl _ _⟩, .refl h _⟩
        rw [IndexTerm.putCopies, if_neg hl]
        exact .idx hg
  | lam body ih =>
    obtain ⟨depth, rfl⟩ := IndexTerm.depth_eq_succ hd
    rw [substituteAmongOld_of_lt (hold _ tr.root_mem)]
    cases tr with
    | @lam slot bodySlot _ S hg trb hn =>
      obtain ⟨hl, fit⟩ := fit
      rw [Finset.disjoint_insert_left] at dis
      obtain ⟨h', e, ⟨S', tr', w⟩, kp⟩ := ih trb trE dis.2
        (fun x hx => hold x (Finset.mem_insert_of_mem hx)) (Nat.le_of_succ_le_succ hd) fit
      have hlt := lt_size_of_get_eq_ok hg
      refine ⟨h', ?_, ⟨_, .lam (kp.get_ok hg hn) tr' (w.notMem hlt hn), w.insert slot⟩,
        kp.mono (Finset.subset_insert _ _)⟩
      rw [substituteAt_lam hg, crossBinder_eq_ok_iff.2 ⟨hl, rfl⟩]
      exact e
  | app fn arg ihf iha =>
    obtain ⟨depth, rfl⟩ := IndexTerm.depth_eq_succ hd
    have hd := Nat.le_of_succ_le_succ hd
    rw [substituteAmongOld_of_lt (hold _ tr.root_mem)]
    cases tr with
    | @app slot fnSlot argSlot _ _ S R hg trf tra hf ha disSR =>
      rw [Finset.disjoint_insert_left, Finset.disjoint_union_left] at dis
      have hlt := lt_size_of_get_eq_ok hg
      obtain ⟨h₁, e₁, ⟨S', trf', w₁⟩, kp₁⟩ := ihf trf trE dis.2.1
        (fun x hx => hold x (Finset.mem_insert_of_mem (Finset.mem_union_left R hx)))
        (le_of_max_le_left hd) fit.1
      obtain ⟨h₂, e₂, ⟨R', tra', w₂⟩, kp₂⟩ := iha (tra.frame kp₁ disSR.symm)
        (trE.frame kp₁ dis.2.1.symm) dis.2.2
        (fun x hx => hold x (Finset.mem_insert_of_mem (Finset.mem_union_right S hx)))
        (le_of_max_le_right hd) fit.2
      -- What the first part took up is old for the second walk, and so the second leaves it alone.
      have dis₁ : Disjoint S' R := w₁.disjoint disSR fun x hx => tra.lt_size hx
      have dis₂ : Disjoint S' R' :=
        (w₂.disjoint dis₁.symm fun x hx => trf'.lt_size hx).symm
      have hf' : slot ∉ S' := w₁.notMem hlt hf
      have ha' : slot ∉ R' := w₂.notMem (Nat.lt_of_lt_of_le hlt kp₁.size_le) ha
      have hg₂ := kp₂.get_ok (kp₁.get_ok hg hf) ha
      refine ⟨h₂, ?_, ⟨_, .app hg₂ (trf'.frame kp₂ dis₁) tra' hf' ha' dis₂, ?_⟩, ?_⟩
      · rw [substituteAt_app hg, e₁]
        exact e₂
      · exact (w₁.union (w₂.mono kp₁.size_le)).insert slot
      · exact (kp₁.union kp₂).mono (Finset.subset_insert slot _)

/-- Copies that were put in fitted. -/
lemma TreeAt.copiesFit {h h' : Heap} {slot t S replacement u E old depth} {level crossed : Nat}
    (tr : h.TreeAt slot t S) (trE : h.TreeAt replacement u E) (dis : Disjoint S E)
    (hold : ∀ x ∈ S, x < old) (hd : t.height ≤ depth)
    (e : substituteAmongOld replacement old depth h slot level crossed = .ok h') :
    IndexTerm.CopiesFit u level crossed t := by
  induction t generalizing h h' slot S depth level crossed with
  | idx index =>
    obtain ⟨depth, rfl⟩ := IndexTerm.depth_eq_succ hd
    rw [substituteAmongOld_of_lt (hold _ tr.root_mem)] at e
    cases tr with
    | idx hg =>
      intro hl
      rw [substituteAt_idx hg, if_pos hl] at e
      exact trE.unfolds.shiftable_of_replaceByCopy trE.height_le e
  | lam body ih =>
    obtain ⟨depth, rfl⟩ := IndexTerm.depth_eq_succ hd
    rw [substituteAmongOld_of_lt (hold _ tr.root_mem)] at e
    cases tr with
    | lam hg trb hn =>
      rw [Finset.disjoint_insert_left] at dis
      rw [substituteAt_lam hg, bind_eq_ok_iff] at e
      obtain ⟨inner, ec, e⟩ := e
      obtain ⟨hc, rfl⟩ := crossBinder_eq_ok_iff.1 ec
      exact ⟨hc, ih trb trE dis.2 (fun x hx => hold x (Finset.mem_insert_of_mem hx))
        (Nat.le_of_succ_le_succ hd) e⟩
  | app fn arg ihf iha =>
    obtain ⟨depth, rfl⟩ := IndexTerm.depth_eq_succ hd
    have hd := Nat.le_of_succ_le_succ hd
    rw [substituteAmongOld_of_lt (hold _ tr.root_mem)] at e
    cases tr with
    | @app slot fnSlot argSlot _ _ S R hg trf tra hf ha disSR =>
      rw [Finset.disjoint_insert_left, Finset.disjoint_union_left] at dis
      rw [substituteAt_app hg, bind_eq_ok_iff] at e
      obtain ⟨h₁, e₁, e₂⟩ := e
      have holdS : ∀ x ∈ S, x < old :=
        fun x hx => hold x (Finset.mem_insert_of_mem (Finset.mem_union_left R hx))
      have holdR : ∀ x ∈ R, x < old :=
        fun x hx => hold x (Finset.mem_insert_of_mem (Finset.mem_union_right S hx))
      have fit := ihf trf trE dis.2.1 holdS (le_of_max_le_left hd) e₁
      -- The walk through the function fitted too, so it kept the argument and what is copied.
      obtain ⟨_, e₁', -, kp⟩ :=
        trf.substituteAmongOld_ok trE dis.2.1 holdS (le_of_max_le_left hd) fit
      cases e₁.symm.trans e₁'
      exact ⟨fit, iha (tra.frame kp disSR.symm) (trE.frame kp dis.2.1.symm) dis.2.2 holdR
        (le_of_max_le_right hd) e₂⟩

/-- A walk that succeeds puts the copies in. -/
lemma TreeAt.substituted_of_walk {h h' : Heap} {slot t S replacement u E old depth}
    {level crossed : Nat} (tr : h.TreeAt slot t S) (trE : h.TreeAt replacement u E)
    (dis : Disjoint S E) (hold : ∀ x ∈ S, x < old) (hd : t.height ≤ depth)
    (e : substituteAmongOld replacement old depth h slot level crossed = .ok h') :
    Substituted h h' slot t S u level crossed := by
  obtain ⟨_, e', sub⟩ :=
    tr.substituteAmongOld_ok trE dis hold hd (tr.copiesFit trE dis hold hd e)
  cases e.symm.trans e'
  exact sub

/-- Copies of a tree can be put into a tree apart from it exactly if they fit. -/
lemma TreeAt.exists_substitute_iff {h : Heap} {slot t S replacement u E} {level : Nat}
    (tr : h.TreeAt slot t S) (trE : h.TreeAt replacement u E) (dis : Disjoint S E) :
    (∃ h', h.substitute slot replacement level = .ok h') ↔ IndexTerm.CopiesFit u level 0 t := by
  have hold : ∀ x ∈ S, x < h.size := fun x hx => tr.lt_size hx
  have hd : t.height ≤ h.depthBound + patience :=
    tr.height_le.trans (Nat.le_add_right _ _)
  constructor
  · rintro ⟨h', e⟩
    exact tr.copiesFit trE dis hold hd e
  · intro fit
    obtain ⟨h', e, -⟩ := tr.substituteAmongOld_ok trE dis hold hd fit
    exact ⟨h', e⟩

/-- A substitution in a tree that succeeds puts the copies in. -/
lemma TreeAt.substituted {h h' : Heap} {slot t S replacement u E} {level : Nat}
    (tr : h.TreeAt slot t S) (trE : h.TreeAt replacement u E) (dis : Disjoint S E)
    (e : h.substitute slot replacement level = .ok h') :
    Substituted h h' slot t S u level 0 :=
  tr.substituted_of_walk trE dis (fun _ hx => tr.lt_size hx)
    (tr.height_le.trans (Nat.le_add_right _ _)) e

end WeakHead.Heap

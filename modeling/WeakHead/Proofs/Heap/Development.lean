import WeakHead.Proofs.Heap.Shared
import WeakHead.Proofs.Heap.Substitution

/-!
# How a heap develops

The passes of a contraction overwrite slots that hold variables, and nothing else. So abstractions
and applications stay what they are, whatever is shared, and a slot that stands for a term goes on
to stand for one.
-/

namespace WeakHead.Heap

variable {h h' h'' : Heap} {x : Slot} {node : Node} {t : IndexTerm}

/-- All nodes are kept, except that a slot with a variable may have come to stand for another
term. -/
def Develops (h h' : Heap) : Prop :=
  ∀ ⦃x node⦄, h.get x = .ok node →
    h'.get x = .ok node ∨ (∃ index, node = .idx index) ∧ ∃ t, h'.Unfolds x t

namespace Develops

/-- An abstraction is kept. -/
lemma get_lam (dv : Develops h h') {body} (hg : h.get x = .ok (.lam body)) :
    h'.get x = .ok (.lam body) := by
  rcases dv hg with hg' | ⟨⟨index, e⟩, -⟩
  · exact hg'
  · cases e

/-- An application is kept. -/
lemma get_app (dv : Develops h h') {fn arg} (hg : h.get x = .ok (.app fn arg)) :
    h'.get x = .ok (.app fn arg) := by
  rcases dv hg with hg' | ⟨⟨index, e⟩, -⟩
  · exact hg'
  · cases e

/-- A node with parts is kept. -/
lemma get_of_part (dv : Develops h h') {x node part} {i : Nat} (hg : h.get x = .ok node)
    (hp : node.parts[i]? = some part) : h'.get x = .ok node := by
  rcases dv hg with hg' | ⟨⟨index, rfl⟩, -⟩
  · exact hg'
  · cases hp

/-- Only the last node of a path may have been overwritten, so the path leads where it led. -/
lemma follow (dv : Develops h h') {slot p x} (e : h.follow slot p = some x) :
    h'.follow slot p = some x := by
  induction p generalizing slot with
  | nil =>
    obtain ⟨node, hg⟩ := exists_get_of_follow e
    rw [follow_nil hg] at e
    cases e
    -- Overwritten or not, the slot holds a node, and the path ends there.
    rcases dv hg with hg' | ⟨-, u, un⟩
    · exact follow_nil hg'
    · obtain ⟨node', hg'⟩ := un.exists_node
      exact follow_nil hg'
  | cons i p ih =>
    obtain ⟨node, hg⟩ := exists_get_of_follow e
    rw [follow_cons hg, Option.bind_eq_some_iff] at e
    obtain ⟨part, hp, e⟩ := e
    rw [follow_cons (dv.get_of_part hg hp), hp]
    exact ih e

/-- A slot that stands for a term still stands for one. -/
lemma exists_unfolds (dv : Develops h h') (un : h.Unfolds x t) : ∃ u, h'.Unfolds x u := by
  induction un with
  | idx hg =>
    rcases dv hg with hg' | ⟨-, ex⟩
    · exact ⟨_, .idx hg'⟩
    · exact ex
  | lam hg _ ih =>
    obtain ⟨u, un'⟩ := ih
    exact ⟨_, .lam (dv.get_lam hg) un'⟩
  | app hg _ _ ihf iha =>
    obtain ⟨u, unf⟩ := ihf
    obtain ⟨v, una⟩ := iha
    exact ⟨_, .app (dv.get_app hg) unf una⟩

/-- Nothing has happened yet. -/
lemma refl (h : Heap) : Develops h h :=
  fun _ _ hg => .inl hg

/-- One development after another. -/
lemma trans (dv : Develops h h') (dv' : Develops h' h'') : Develops h h'' := by
  intro x node hg
  rcases dv hg with hg' | ⟨⟨index, rfl⟩, u, un⟩
  · exact dv' hg'
  · exact .inr ⟨⟨index, rfl⟩, dv'.exists_unfolds un⟩

end Develops

/-- A heap that only grows develops. -/
lemma Keeps.develops (kp : Keeps h h' ∅) : Develops h h' :=
  fun _ _ hg => .inl (kp.get_ok hg (Finset.notMem_empty _))

/-- In a heap that only grows, what is reached is still reached. -/
lemma Reaches.grow {slot} (hr : h.Reaches slot x) (kp : Keeps h h' ∅) : h'.Reaches slot x := by
  obtain ⟨p, e⟩ := hr
  exact ⟨p, kp.develops.follow e⟩

/-! ### Other indices in old places -/

namespace Reindexed

/-- A heap in which only indices have moved has developed. -/
lemma develops (re : Reindexed h h') : Develops h h' := by
  intro x node hg
  rcases re.get hg with hg' | ⟨i, j, e, hg'⟩
  · exact .inl hg'
  · exact .inr ⟨⟨i, e⟩, _, .idx hg'⟩

/-- With other indices, a slot stands for a term of the same height. -/
lemma exists_unfolds (re : Reindexed h h') (un : h.Unfolds x t) :
    ∃ u, h'.Unfolds x u ∧ u.height = t.height := by
  induction un with
  | idx hg =>
    rcases re.get hg with hg' | ⟨i, j, -, hg'⟩
    · exact ⟨_, .idx hg', rfl⟩
    · exact ⟨_, .idx hg', rfl⟩
  | lam hg _ ih =>
    obtain ⟨u, un', e⟩ := ih
    exact ⟨_, .lam (re.get_lam hg) un', congrArg (· + 1) e⟩
  | app hg _ _ ihf iha =>
    obtain ⟨u, unf, e⟩ := ihf
    obtain ⟨v, una, e'⟩ := iha
    exact ⟨_, .app (re.get_app hg) unf una, by rw [IndexTerm.height, IndexTerm.height, e, e']⟩

end Reindexed

/-! ### Copies in the places of variables -/

/-- A slot of a tree has its own tree in some of the same slots. -/
lemma TreeAt.sub {slot S} (tr : h.TreeAt slot t S) {x} (hx : x ∈ S) :
    ∃ u R, h.TreeAt x u R ∧ R ⊆ S := by
  induction tr with
  | idx hg =>
    cases Finset.mem_singleton.1 hx
    exact ⟨_, _, .idx hg, Finset.Subset.refl _⟩
  | lam hg trb hn ih =>
    cases Finset.mem_insert.1 hx with
    | inl e =>
      cases e
      exact ⟨_, _, .lam hg trb hn, Finset.Subset.refl _⟩
    | inr hx =>
      obtain ⟨u, R, tr, sub⟩ := ih hx
      exact ⟨u, R, tr, sub.trans (Finset.subset_insert _ _)⟩
  | app hg trf tra hf ha dis ihf iha =>
    cases Finset.mem_insert.1 hx with
    | inl e =>
      cases e
      exact ⟨_, _, .app hg trf tra hf ha dis, Finset.Subset.refl _⟩
    | inr hx =>
      cases Finset.mem_union.1 hx with
      | inl hx =>
        obtain ⟨u, R, tr, sub⟩ := ihf hx
        exact ⟨u, R, tr, sub.trans (Finset.subset_union_left.trans (Finset.subset_insert _ _))⟩
      | inr hx =>
        obtain ⟨u, R, tr, sub⟩ := iha hx
        exact ⟨u, R, tr, sub.trans (Finset.subset_union_right.trans (Finset.subset_insert _ _))⟩

/-- The parts of the root lie in the tree, and the root is none of them. -/
lemma TreeAt.part_mem {slot S part} (tr : h.TreeAt slot t S) (hg : h.get slot = .ok node)
    (hm : part ∈ node.parts) : part ∈ S ∧ part ≠ slot := by
  cases tr with
  | idx hg' =>
    cases hg.symm.trans hg'
    cases hm
  | lam hg' trb hn =>
    cases hg.symm.trans hg'
    cases List.mem_singleton.1 hm
    exact ⟨Finset.mem_insert_of_mem trb.root_mem, fun e => hn (e ▸ trb.root_mem)⟩
  | app hg' trf tra hf ha _ =>
    cases hg.symm.trans hg'
    rcases List.mem_pair.1 hm with rfl | rfl
    · exact ⟨Finset.mem_insert_of_mem (Finset.mem_union_left _ trf.root_mem),
        fun e => hf (e ▸ trf.root_mem)⟩
    · exact ⟨Finset.mem_insert_of_mem (Finset.mem_union_right _ tra.root_mem),
        fun e => ha (e ▸ tra.root_mem)⟩

/-- The variable in a slot has been replaced by a copy of a term, and only new slots were taken. -/
structure Grafted (h h' : Heap) (slot : Slot) : Prop where
  exists_index : ∃ index, h.get slot = .ok (.idx index)
  keeps : Keeps h h' {slot}
  tree : ∃ u S, h'.TreeAt slot u S ∧ Within S {slot} h.size
  fresh : ∀ x, h.size ≤ x → x < h'.size → ∃ u S, h'.TreeAt x u S ∧ ∀ y ∈ S, h.size ≤ y

/-- Putting a copy in the place of a variable grafts it there. -/
lemma Unfolds.grafted {slot replacement u index} {crossed : Nat} (un : h.Unfolds replacement u)
    (hg : h.get slot = .ok (.idx index)) (e : h.replaceByCopy slot replacement crossed = .ok h') :
    Grafted h h' slot := by
  obtain ⟨_, e', kp, tree, copied, trC⟩ := un.replaceByCopy_ok un.height_le
    (lt_size_of_get_eq_ok hg) (un.shiftable_of_replaceByCopy un.height_le e)
  cases e.symm.trans e'
  refine ⟨⟨index, hg⟩, kp, ⟨_, tree⟩, fun x le lt => ?_⟩
  obtain ⟨v, S, trx, sub⟩ := trC.sub (Finset.mem_Ico.2 ⟨le, lt⟩)
  exact ⟨v, S, trx, fun y hy => (Finset.mem_Ico.1 (sub hy)).1⟩

namespace Grafted

variable {slot : Slot}

/-- A graft is a development. -/
lemma develops (gf : Grafted h h' slot) : Develops h h' := by
  intro x node hg
  by_cases e : x = slot
  · subst e
    obtain ⟨index, hg'⟩ := gf.exists_index
    cases hg.symm.trans hg'
    obtain ⟨u, S, tr, -⟩ := gf.tree
    exact .inr ⟨⟨index, rfl⟩, u, tr.unfolds⟩
  · exact .inl (gf.keeps.get_ok hg fun hm => e (Finset.mem_singleton.1 hm))

/-- After a graft a tree is still a tree, and has at most taken new slots. -/
lemma tree_of_tree (gf : Grafted h h' slot) {S} (tr : h.TreeAt x t S) :
    ∃ u S', h'.TreeAt x u S' ∧ Within S' S h.size := by
  induction tr with
  | @idx x index hg =>
    by_cases e : x = slot
    · subst e
      exact gf.tree
    · exact ⟨_, _, .idx (gf.keeps.get_ok hg fun hm => e (Finset.mem_singleton.1 hm)), .refl _ _⟩
  | lam hg _ hn ih =>
    obtain ⟨u, S', tr, w⟩ := ih
    exact ⟨_, _, .lam (gf.develops.get_lam hg) tr (w.notMem (lt_size_of_get_eq_ok hg) hn),
      w.insert _⟩
  | @app x fn arg _ _ S R hg trf tra hf ha dis ihf iha =>
    have hlt := lt_size_of_get_eq_ok hg
    have hg' := gf.develops.get_app hg
    -- The slot is in one of the parts at most, and the other stays as it is.
    by_cases hs : slot ∈ S
    · obtain ⟨u, S', trf', w⟩ := ihf
      have hR : slot ∉ R := Finset.disjoint_left.1 dis hs
      have tra' := tra.frame gf.keeps (Finset.disjoint_singleton_right.2 hR)
      exact ⟨_, _, .app hg' trf' tra' (w.notMem hlt hf) ha
        (w.disjoint dis fun y hy => tra.lt_size hy), (w.union (.refl R _)).insert x⟩
    · obtain ⟨u, R', tra', w⟩ := iha
      have trf' := trf.frame gf.keeps (Finset.disjoint_singleton_right.2 hs)
      exact ⟨_, _, .app hg' trf' tra' hf (w.notMem hlt ha)
        (w.disjoint dis.symm fun y hy => trf.lt_size hy).symm,
        (Within.union (.refl S _) w).insert x⟩

end Grafted

/-- What comes of a heap while copies are put into it: a slot with a variable has got a copy at
most, and the new slots span trees of new slots. -/
structure Grown (h₀ h : Heap) : Prop where
  develops : Develops h₀ h
  size_le : h₀.size ≤ h.size
  leaf : ∀ ⦃x index⦄, h₀.get x = .ok (.idx index) →
    ∃ node, h.get x = .ok node ∧ ∀ part ∈ node.parts, h₀.size ≤ part
  fresh : ∀ x, h₀.size ≤ x → x < h.size → ∃ t S, h.TreeAt x t S ∧ ∀ y ∈ S, h₀.size ≤ y

/-- Nothing has been put in yet. -/
lemma Grown.refl (h : Heap) : Grown h h where
  develops := .refl h
  size_le := Nat.le_refl _
  leaf _ _ hg := ⟨_, hg, nofun⟩
  fresh _ le lt := absurd lt (Nat.not_lt.2 le)

/-- One more copy is put in. -/
lemma Grown.graft {h₀ : Heap} {slot} (gr : Grown h₀ h) (gf : Grafted h h' slot) : Grown h₀ h' where
  develops := gr.develops.trans gf.develops
  size_le := gr.size_le.trans gf.keeps.size_le
  leaf x index hg := by
    by_cases e : x = slot
    · subst e
      obtain ⟨u, S, tr, w⟩ := gf.tree
      obtain ⟨node, hg'⟩ := tr.exists_node
      -- The root of the copy is in the old slot, and all that is below it is new.
      refine ⟨node, hg', fun part hm => ?_⟩
      obtain ⟨hS, ne⟩ := tr.part_mem hg' hm
      cases w hS with
      | inl e => exact absurd (Finset.mem_singleton.1 e) ne
      | inr le => exact gr.size_le.trans le
    · obtain ⟨node, hg', le⟩ := gr.leaf hg
      exact ⟨node, gf.keeps.get_ok hg' fun hm => e (Finset.mem_singleton.1 hm), le⟩
  fresh x le lt := by
    by_cases hx : x < h.size
    · obtain ⟨t, S, tr, new⟩ := gr.fresh x le hx
      obtain ⟨u, S', tr', w⟩ := gf.tree_of_tree tr
      refine ⟨u, S', tr', fun y hy => ?_⟩
      cases w hy with
      | inl hS => exact new y hS
      | inr le => exact gr.size_le.trans le
    · obtain ⟨u, S, tr, new⟩ := gf.fresh x (Nat.le_of_not_lt hx) lt
      exact ⟨u, S, tr, fun y hy => gr.size_le.trans (new y hy)⟩

end WeakHead.Heap

import WeakHead.Heap.Copy
import WeakHead.Proofs.Heap.Tree

/-!
# Trees at the end of the heap

Copies, resolved terms and compacted terms are all built in the same way: the nodes of a term are
appended, the parts of a node before the node. `PostAt` says in which slots the nodes then stand,
and `Built` what has come of the heap; there is one lemma for each kind of node that is appended
last.
-/

namespace WeakHead.Heap

/-- A tree for the term takes up the slots from `start` to `slot`: those of its left part first,
then those of its right part, and its root last. -/
inductive PostAt (h : Heap) : Nat → IndexTerm → Slot → Prop where
  | idx {slot index} :
    h.get slot = .ok (.idx index) →
    PostAt h slot (.idx index) slot
  | lam {start body t} :
    PostAt h start t body →
    h.get (body + 1) = .ok (.lam body) →
    PostAt h start (.lam t) (body + 1)
  | app {start fn arg t u} :
    PostAt h start t fn →
    PostAt h (fn + 1) u arg →
    h.get (arg + 1) = .ok (.app fn arg) →
    PostAt h start (.app t u) (arg + 1)

lemma PostAt.le {h : Heap} {start t slot} (po : h.PostAt start t slot) : start ≤ slot := by
  induction po with
  | idx _ => exact Nat.le_refl _
  | lam _ _ ih => exact Nat.le_succ_of_le ih
  | app _ _ _ ihf iha => omega

/-- There is one slot for each node of the term. -/
lemma PostAt.root_eq {h : Heap} {start t slot} (po : h.PostAt start t slot) :
    slot + 1 = start + t.size := by
  induction po with
  | idx _ => rfl
  | lam _ _ ih => rw [ih, IndexTerm.size, Nat.add_assoc]
  | app _ _ _ ihf iha =>
    rw [iha, ihf, IndexTerm.size, Nat.add_assoc, Nat.add_assoc, Nat.add_assoc]

lemma PostAt.grow {h h' : Heap} {start t slot} (po : h.PostAt start t slot) (kp : Keeps h h' ∅) :
    h'.PostAt start t slot := by
  induction po with
  | idx hg => exact .idx (kp.get_ok hg (Finset.notMem_empty _))
  | lam _ hg ih => exact .lam ih (kp.get_ok hg (Finset.notMem_empty _))
  | app _ _ hg ihf iha => exact .app ihf iha (kp.get_ok hg (Finset.notMem_empty _))

/-- Other indices make another term of a tree, in the same order. -/
lemma PostAt.reindexed {h h' : Heap} {start t t' slot} (po : h.PostAt start t slot)
    (re : Reindexed h h') (un : h'.Unfolds slot t') : h'.PostAt start t' slot := by
  induction po generalizing t' with
  | idx hg =>
    cases un with
    | idx hg' => exact .idx hg'
    | lam hg' _ => cases hg.symm.trans (re.symm.get_lam hg')
    | app hg' _ _ => cases hg.symm.trans (re.symm.get_app hg')
  | lam _ hg ih =>
    have hg' := re.get_lam hg
    cases un with
    | idx hi => cases hg'.symm.trans hi
    | lam hl unb =>
      cases hg'.symm.trans hl
      exact .lam (ih unb) hg'
    | app ha _ _ => cases hg'.symm.trans ha
  | app _ _ hg ihf iha =>
    have hg' := re.get_app hg
    cases un with
    | idx hi => cases hg'.symm.trans hi
    | lam hl _ => cases hg'.symm.trans hl
    | app ha unf una =>
      cases hg'.symm.trans ha
      exact .app (ihf unf) (iha una) hg'

/-- The slots in order are those of a tree. -/
lemma PostAt.tree {h : Heap} {start t slot} (po : h.PostAt start t slot) :
    h.TreeAt slot t (Finset.Ico start (slot + 1)) := by
  induction po with
  | idx hg =>
    rw [Nat.Ico_succ_singleton]
    exact .idx hg
  | lam po hg ih =>
    rw [Nat.Ico_succ_right_eq_insert_Ico (Nat.le_succ_of_le po.le)]
    exact .lam hg ih Finset.right_notMem_Ico
  | @app start fn arg t u pof poa hg ihf iha =>
    have le₁ : start ≤ fn + 1 := Nat.le_succ_of_le pof.le
    have le₂ : fn + 1 ≤ arg + 1 := Nat.le_succ_of_le poa.le
    -- The nodes of the function come first, then those of the argument, and the root last.
    rw [Nat.Ico_succ_right_eq_insert_Ico (le₁.trans le₂), ← Finset.Ico_union_Ico_eq_Ico le₁ le₂]
    refine .app hg ihf iha ?_ Finset.right_notMem_Ico (Finset.Ico_disjoint_Ico_consecutive _ _ _)
    exact fun hm => absurd (Finset.mem_Ico.1 hm).2 (Nat.not_lt.2 le₂)

/-- The second heap has the nodes of the first and after them the nodes of a tree for the term,
which starts at the last of them. -/
structure Built (h h' : Heap) (slot : Slot) (t : IndexTerm) : Prop where
  post : h'.PostAt h.size t slot
  keeps : Keeps h h' ∅
  root_eq : slot + 1 = h'.size

/-- What has been built is a tree in the new slots. -/
lemma Built.tree {h h' : Heap} {slot t} (bt : Built h h' slot t) :
    h'.TreeAt slot t (Finset.Ico h.size h'.size) := by
  rw [← bt.root_eq]
  exact bt.post.tree

/-- A new slot has been taken for each node. -/
lemma Built.size_eq {h h' : Heap} {slot t} (bt : Built h h' slot t) :
    h'.size = h.size + t.size :=
  bt.root_eq.symm.trans bt.post.root_eq

lemma built_idx (h : Heap) (index) : Built h (h.push (.idx index)) h.size (.idx index) :=
  ⟨.idx (get_push_size h _), keeps_push h _ ∅, (size_push h _).symm⟩

/-- An abstraction is built behind its body. -/
lemma Built.lam {h h' : Heap} {body t} (bt : Built h h' body t) :
    Built h (h'.push (.lam body)) h'.size (.lam t) := by
  have kp := keeps_push h' (.lam body) ∅
  refine ⟨?_, bt.keeps.trans kp (.refl _ _), (size_push _ _).symm⟩
  have hg := get_push_size h' (.lam body)
  rw [← bt.root_eq] at hg ⊢
  exact .lam (bt.post.grow kp) hg

/-- An application is built behind its function and its argument. -/
lemma Built.app {h h₁ h₂ : Heap} {fn arg t u} (bf : Built h h₁ fn t) (ba : Built h₁ h₂ arg u) :
    Built h (h₂.push (.app fn arg)) h₂.size (.app t u) := by
  have kp := keeps_push h₂ (.app fn arg) ∅
  refine ⟨?_, (bf.keeps.trans ba.keeps (.refl _ _)).trans kp (.refl _ _), (size_push _ _).symm⟩
  have hg := get_push_size h₂ (.app fn arg)
  have poa := ba.post
  rw [← ba.root_eq] at hg ⊢
  rw [← bf.root_eq] at poa
  exact .app ((bf.post.grow ba.keeps).grow kp) (poa.grow kp) hg

/-! ### Copies -/

lemma copyWithin_idx {h : Heap} {slot index} (hg : h.get slot = .ok (.idx index)) (depth) :
    copyWithin (depth + 1) h slot = .ok (h.push (.idx index), h.size) := by
  rw [copyWithin, hg]
  rfl

lemma copyWithin_lam {h : Heap} {slot body} (hg : h.get slot = .ok (.lam body)) (depth) :
    copyWithin (depth + 1) h slot =
      (copyWithin depth h body).map fun (h, body) => (h.push (.lam body), h.size) := by
  rw [copyWithin, hg]
  rfl

/-- An application is copied behind the copies of its parts. -/
lemma copyWithin_app {h : Heap} {slot fn arg} (hg : h.get slot = .ok (.app fn arg)) (depth) :
    copyWithin (depth + 1) h slot =
      (copyWithin depth h fn).bind fun (h, fn) =>
        (copyWithin depth h arg).map fun (h, arg) => (h.push (.app fn arg), h.size) := by
  rw [copyWithin, hg]
  rfl

lemma Unfolds.grow {h h' : Heap} {slot t} (un : h.Unfolds slot t) (kp : Keeps h h' ∅) :
    h'.Unfolds slot t := by
  induction un with
  | idx hg => exact .idx (kp.get_ok hg (Finset.notMem_empty _))
  | lam hg _ ih => exact .lam (kp.get_ok hg (Finset.notMem_empty _)) ih
  | app hg _ _ ihf iha => exact .app (kp.get_ok hg (Finset.notMem_empty _)) ihf iha

/-- A copy of a term is a tree of its own, even if the term shares nodes. -/
lemma Unfolds.copyWithin_ok {h : Heap} {slot t} (un : h.Unfolds slot t) {depth}
    (hd : t.height ≤ depth) :
    ∃ h' copied, copyWithin depth h slot = .ok (h', copied) ∧ Built h h' copied t := by
  induction t generalizing h slot depth with
  | idx index =>
    obtain ⟨depth, rfl⟩ := IndexTerm.depth_eq_succ hd
    cases un with
    | idx hg => exact ⟨_, _, copyWithin_idx hg depth, built_idx h index⟩
  | lam body ih =>
    obtain ⟨depth, rfl⟩ := IndexTerm.depth_eq_succ hd
    cases un with
    | lam hg unb =>
      obtain ⟨h', copied, e, bt⟩ := ih unb (Nat.le_of_succ_le_succ hd)
      refine ⟨_, _, ?_, bt.lam⟩
      rw [copyWithin_lam hg, e]
      rfl
  | app fn arg ihf iha =>
    obtain ⟨depth, rfl⟩ := IndexTerm.depth_eq_succ hd
    have hd := Nat.le_of_succ_le_succ hd
    cases un with
    | app hg unf una =>
      obtain ⟨h₁, copiedF, e₁, bf⟩ := ihf unf (le_of_max_le_left hd)
      obtain ⟨h₂, copiedA, e₂, ba⟩ := iha (una.grow bf.keeps) (le_of_max_le_right hd)
      refine ⟨_, _, ?_, bf.app ba⟩
      rw [copyWithin_app hg, e₁]
      show (copyWithin depth h₁ _).map _ = _
      rw [e₂]
      rfl

end WeakHead.Heap

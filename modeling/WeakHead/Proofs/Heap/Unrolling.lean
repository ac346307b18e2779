import WeakHead.Proofs.Heap.Resolution
import WeakHead.Proofs.Heap.Walk

/-!
# One node for each path

A heap in which nodes are shared has more paths than nodes. What is built from a term is a tree, so
it has as many nodes as the term it was built from has paths; and since every node is appended after
its parts, a walk leaves the new nodes in the order of their slots.
-/

namespace WeakHead

/-- The slot that is left, if the event is a leaving. -/
def Visit.left? : Visit → Option Slot
  | enter _ => none
  | leave slot => some slot

namespace Heap

/-- The second heap has the nodes of the first, and after them one node for each path from `slot`.
A walk leaves the new nodes in their order, and `root` is the last of them. -/
structure Unrolls (h : Heap) (slot : Slot) (h' : Heap) (root : Slot) : Prop where
  keeps : ∀ x < h.size, h'.get x = h.get x
  paths : ∀ path, (h'.follow root path).isSome = (h.follow slot path).isSome
  fresh : ∀ path x, h'.follow root path = some x → h.size ≤ x
  unique : ∀ x, h.size ≤ x → x < h'.size → ∃! path, h'.follow root path = some x
  postorder : ∃ events : List Visit, h'.visits root = .ok events.toArray ∧
    events.filterMap Visit.left? = List.range' h.size (h'.size - h.size)
  root_last : root + 1 = h'.size

variable {h h' : Heap} {slot root : Slot}

/-! ### Paths -/

/-- Two nodes have the same paths if their parts have. -/
lemma isSome_follow_eq {node node'} (hg : h.get slot = .ok node) (hg' : h'.get root = .ok node')
    (parts : List.Forall₂ (fun part part' => ∀ path,
      (h'.follow part' path).isSome = (h.follow part path).isSome) node.parts node'.parts) (path) :
    (h'.follow root path).isSome = (h.follow slot path).isSome := by
  cases path with
  | nil => rw [follow_nil hg, follow_nil hg']; rfl
  | cons i path =>
    rw [follow_cons hg, follow_cons hg']
    generalize node.parts = ps, node'.parts = ps' at parts
    induction parts generalizing i with
    | nil => rfl
    | cons same _ ih =>
      cases i with
      | zero => exact same path
      | succ i => exact ih i

lemma UnfoldsNamed.isSome_follow_eq {t : Term} {names} (un : h.UnfoldsNamed slot t)
    (un' : h'.Unfolds root (t.toIndex names)) (path) :
    (h'.follow root path).isSome = (h.follow slot path).isSome := by
  induction t generalizing slot root names path with
  | var name =>
    cases un with
    | var hg =>
      cases un' with
      | idx hg' => exact Heap.isSome_follow_eq hg hg' .nil path
  | abs binder body ih =>
    cases un with
    | abs hg un =>
      cases un' with
      | lam hg' un' => exact Heap.isSome_follow_eq hg hg' (.cons (ih un un') .nil) path
  | app fn arg ihf iha =>
    cases un with
    | app hg unf una =>
      cases un' with
      | app hg' unf' una' =>
        exact Heap.isSome_follow_eq hg hg' (.cons (ihf unf unf') (.cons (iha una una') .nil)) path

/-! ### Postorder -/

lemma filterMap_left_around (slot) (es : List Visit) :
    (Visit.enter slot :: es ++ [Visit.leave slot]).filterMap Visit.left? =
      es.filterMap Visit.left? ++ [slot] := by
  rw [List.cons_append, List.filterMap_cons_none rfl, List.filterMap_append]
  rfl

/-- A walk over a tree that was appended leaves its nodes in their order. -/
lemma PostAt.exists_walks {start t} (po : h.PostAt start t slot) {depth} (hd : t.height ≤ depth) :
    ∃ es, h.Walks depth slot es ∧ es.filterMap Visit.left? = List.range' start t.size := by
  induction po generalizing depth with
  | idx hg =>
    obtain ⟨depth, rfl⟩ := IndexTerm.depth_eq_succ hd
    exact ⟨_, walks_leaf hg rfl depth, rfl⟩
  | @lam start body t po hg ih =>
    obtain ⟨depth, rfl⟩ := IndexTerm.depth_eq_succ hd
    obtain ⟨es, wk, e⟩ := ih (Nat.le_of_succ_le_succ hd)
    refine ⟨_, wk.one hg rfl, ?_⟩
    rw [filterMap_left_around, e, po.root_eq, IndexTerm.size, List.range'_1_concat]
  | @app start fn arg t u pof poa hg ihf iha =>
    obtain ⟨depth, rfl⟩ := IndexTerm.depth_eq_succ hd
    have hd := Nat.le_of_succ_le_succ hd
    obtain ⟨es, wk, e⟩ := ihf (le_of_max_le_left hd)
    obtain ⟨es', wk', e'⟩ := iha (le_of_max_le_right hd)
    refine ⟨_, wk.two wk' hg, ?_⟩
    rw [filterMap_left_around, List.filterMap_append, e, e', poa.root_eq, pof.root_eq,
      List.range'_append_1, IndexTerm.size, List.range'_1_concat, Nat.add_assoc]

lemma Built.exists_visits {t} (bt : Built h h' root t) :
    ∃ events : List Visit, h'.visits root = .ok events.toArray ∧
      events.filterMap Visit.left? = List.range' h.size (h'.size - h.size) := by
  obtain ⟨es, wk, e⟩ := bt.post.exists_walks bt.tree.height_le
  refine ⟨es, wk.visits_eq, ?_⟩
  rw [e, bt.size_eq, Nat.add_sub_cancel_left]

/-- A term that is built at the end of the heap unrolls what has the same paths. -/
lemma Built.unrolls {t} (bt : Built h h' root t)
    (same : ∀ path, (h'.follow root path).isSome = (h.follow slot path).isSome) :
    h.Unrolls slot h' root := by
  have tr := bt.tree
  refine ⟨fun x hx => bt.keeps.get_eq hx (Finset.notMem_empty x), same, fun path x e => ?_,
    fun x le lt => ?_, bt.exists_visits, bt.root_eq⟩
  · exact (Finset.mem_Ico.1 (tr.mem_iff_reaches.2 ⟨path, e⟩)).1
  · obtain ⟨path, e⟩ := tr.mem_iff_reaches.1 (Finset.mem_Ico.2 ⟨le, lt⟩)
    exact ⟨path, e, fun path' e' => tr.spansTree path' path x e' e⟩

end Heap

end WeakHead

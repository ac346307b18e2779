import WeakHead.Heap.Compaction
import WeakHead.Proofs.Heap.Alike

/-!
# Compaction of a tree

On a tree no slot is met twice, so each node is moved when it is met, and the new heap is built from
the nodes of the tree and nothing else.
-/

namespace WeakHead

namespace Compaction

/-- The second compaction has moved no slots but `S` since the first. -/
def Moved (c c' : Compaction) (S : Finset Slot) : Prop :=
  ∀ x ∉ S, c'.newSlot? x = c.newSlot? x

lemma newSlot?_start (h : Heap) (slot) : (start h).newSlot? slot = none := by
  rw [start, newSlot?, Array.getElem?_replicate]
  split <;> rfl

/-- A node that is moved is put at the end of the new heap, and no other slot moves. -/
lemma move_eq (c : Compaction) (slot node) :
    ∃ c', c.move slot node = (c', c.target.size) ∧ c'.target = c.target.push node ∧
      Moved c c' {slot} := by
  refine ⟨_, rfl, rfl, fun x hn => ?_⟩
  have ne : slot ≠ x := fun e => hn (Finset.mem_singleton.2 e.symm)
  simp only [newSlot?]
  rw [Array.getElem?_setIfInBounds_ne ne]

/-- Moves of different slots add up. -/
lemma Moved.trans {c c' c'' S R} (mv : Moved c c' S) (mv' : Moved c' c'' R) :
    Moved c c'' (S ∪ R) := by
  intro x hn
  rw [Finset.mem_union, not_or] at hn
  rw [mv' x hn.2, mv x hn.1]

variable {h : Heap} {slot part : Slot} {node : Node} {c : Compaction}

/-- A slot that has been moved is where it is. -/
lemma carry_of_moved {fresh} (e : c.newSlot? slot = some fresh) (depth) :
    carry h (depth + 1) c slot = .ok (c, fresh) := by
  rw [carry, e]
  rfl

lemma carry_leaf (hg : h.get slot = .ok node) (hp : node.parts = []) (hn : c.newSlot? slot = none)
    (depth) : carry h (depth + 1) c slot = .ok (c.move slot (node.rename id)) := by
  rw [carry, hn]
  show (h.get slot >>= _) = _
  rw [hg]
  cases node with
  | var _ => rfl
  | idx _ => rfl
  | _ => cases hp

lemma carry_one (hg : h.get slot = .ok node) (hp : node.parts = [part])
    (hn : c.newSlot? slot = none) (depth) :
    carry h (depth + 1) c slot =
      (carry h depth c part).map fun (c, fresh) => c.move slot (node.rename fun _ => fresh) := by
  rw [carry, hn]
  show (h.get slot >>= _) = _
  rw [hg]
  cases node with
  | abs _ _ =>
    cases hp
    rfl
  | lam _ =>
    cases hp
    rfl
  | _ => cases hp

lemma carry_app {fn arg} (hg : h.get slot = .ok (.app fn arg)) (hn : c.newSlot? slot = none)
    (depth) :
    carry h (depth + 1) c slot =
      (carry h depth c fn).bind fun (c, fn) =>
        (carry h depth c arg).map fun (c, arg) => c.move slot (.app fn arg) := by
  rw [carry, hn]
  show (h.get slot >>= _) = _
  rw [hg]
  rfl

end Compaction

/-- A compaction carries the root, and counts what it has left behind. -/
lemma Graph.compact_of_carry {g : Graph} {c : Compaction} {fresh}
    (e : Compaction.carry g.heap g.heap.depthBound (.start g.heap) g.root = .ok (c, fresh)) :
    g.compact = .ok ⟨⟨c.target, fresh⟩, c.target.size, g.heap.size - c.target.size⟩ := by
  rw [Graph.compact, e]
  rfl

namespace Heap

open Compaction

/-- A tree none of whose slots was moved is built at the end of the new heap. -/
lemma TreeAt.carry_ok {h : Heap} {slot t S} (tr : h.TreeAt slot t S) {depth}
    (hd : t.height ≤ depth) {c} (hn : ∀ x ∈ S, c.newSlot? x = none) :
    ∃ c' fresh, carry h depth c slot = .ok (c', fresh) ∧ Built c.target c'.target fresh t ∧
      Moved c c' S := by
  induction t generalizing slot S depth c with
  | idx index =>
    obtain ⟨depth, rfl⟩ := IndexTerm.depth_eq_succ hd
    have hs := hn slot tr.root_mem
    cases tr with
    | idx hg =>
      obtain ⟨c', em, et, mv⟩ := move_eq c slot (.idx index)
      refine ⟨c', _, (carry_leaf hg rfl hs depth).trans (congrArg _ em), ?_, mv⟩
      rw [et]
      exact built_idx _ index
  | lam body ih =>
    obtain ⟨depth, rfl⟩ := IndexTerm.depth_eq_succ hd
    have hs := hn slot tr.root_mem
    cases tr with
    | lam hg trb hm =>
      obtain ⟨c₁, fresh, e, bt, mv⟩ := ih trb (Nat.le_of_succ_le_succ hd) fun x hx =>
        hn x (Finset.mem_insert_of_mem hx)
      obtain ⟨c', em, et, mv'⟩ := move_eq c₁ slot (.lam fresh)
      refine ⟨c', c₁.target.size, ?_, ?_, ?_⟩
      · rw [carry_one hg rfl hs, e, ← em]
        rfl
      · rw [et]
        exact bt.lam
      · rw [Finset.insert_eq, Finset.union_comm]
        exact mv.trans mv'
  | app fn arg ihf iha =>
    obtain ⟨depth, rfl⟩ := IndexTerm.depth_eq_succ hd
    have hd := Nat.le_of_succ_le_succ hd
    have hs := hn slot tr.root_mem
    cases tr with
    | app hg trf tra hf ha dis =>
      obtain ⟨c₁, fresh, e, bf, mv⟩ := ihf trf (le_of_max_le_left hd) fun x hx =>
        hn x (Finset.mem_insert_of_mem (Finset.mem_union_left _ hx))
      have hn₁ : ∀ x ∈ _, c₁.newSlot? x = none := fun x hx => by
        rw [mv x (Finset.disjoint_right.1 dis hx)]
        exact hn x (Finset.mem_insert_of_mem (Finset.mem_union_right _ hx))
      obtain ⟨c₂, fresh', e', ba, mv'⟩ := iha tra (le_of_max_le_right hd) hn₁
      obtain ⟨c', em, et, mv''⟩ := move_eq c₂ slot (.app fresh fresh')
      refine ⟨c', c₂.target.size, ?_, ?_, ?_⟩
      · rw [carry_app hg hs, e]
        show (carry h depth c₁ _).map _ = _
        rw [e', ← em]
        rfl
      · rw [et]
        exact bf.app ba
      · rw [Finset.insert_eq, Finset.union_comm]
        exact (mv.trans mv').trans mv''

/-- A tree can be compacted: the new heap holds the nodes of its term and nothing else, and starts
anew with slots. -/
lemma TreeAt.compact_ok {g : Graph} {t S} (tr : g.heap.TreeAt g.root t S) :
    ∃ c : Compacted, g.compact = .ok c ∧ c.live = t.size ∧ c.graph.heap.size = t.size ∧
      c.graph.heap.TreeAt c.graph.root t (Finset.range t.size) ∧
      c.freed = g.heap.size - t.size := by
  obtain ⟨c, root, e, bt, -⟩ := tr.carry_ok tr.height_le (c := .start g.heap)
    fun x _ => newSlot?_start g.heap x
  have es : c.target.size = t.size := bt.size_eq.trans (Nat.zero_add _)
  have tr' := bt.tree
  rw [es, show (Compaction.start g.heap).target.size = 0 from rfl, ← Finset.range_eq_Ico] at tr'
  exact ⟨_, Graph.compact_of_carry e, es, es, tr', congrArg _ es⟩

end Heap

end WeakHead

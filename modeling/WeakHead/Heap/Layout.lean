import WeakHead.Heap.Basic
import WeakHead.Term

/-!
# Terms in the heap

`layOut` appends the nodes of a term: the parts of a node before the node, the left part before the
right one. So every node stands behind its parts and the root of the term is the last node.
-/

namespace WeakHead.Heap

/-- Appends the nodes of a term and gives the slot of its root. -/
def layOut (h : Heap) : Term → Heap × Slot
  | .var name => h.append (.var name)
  | .abs binder body =>
    let (h, body) := h.layOut body
    h.append (.abs binder body)
  | .app fn arg =>
    let (h, fn) := h.layOut fn
    let (h, arg) := h.layOut arg
    h.append (.app fn arg)

/-- One node is appended for each constructor. -/
theorem size_layOut (h : Heap) (t : Term) : (h.layOut t).1.size = h.size + t.size := by
  induction t generalizing h with
  | var name => simp [layOut, append, Term.size]
  | abs binder body ih => simp [layOut, append, Term.size, ih, Nat.add_assoc]
  | app fn arg ihf iha => simp [layOut, append, Term.size, ihf, iha, Nat.add_assoc]

/-- The root of a term is the last node that was appended. -/
theorem layOut_root (h : Heap) (t : Term) : (h.layOut t).2 + 1 = (h.layOut t).1.size := by
  cases t <;> simp [layOut, append]

end WeakHead.Heap

namespace WeakHead

/-- A heap that holds one term and nothing else. -/
def Graph.ofTerm (t : Term) : Graph :=
  let (heap, root) := Heap.empty.layOut t
  ⟨heap, root⟩

end WeakHead

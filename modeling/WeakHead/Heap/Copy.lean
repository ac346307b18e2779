import WeakHead.Heap.Basic

/-!
# Copies

`copy` appends a new node for every path from a slot, so that the copy shares nothing, neither with
what it was made from nor with itself. The parts of a node stand before it, and the root comes last.
-/

namespace WeakHead.Heap

/-- Copies the term under `slot`, at most `depth` deep. -/
def copyWithin : Nat → Heap → Slot → Except Fault (Heap × Slot)
  | 0, _, slot => .error (.endless slot)
  | depth + 1, h, slot => do
    match ← h.get slot with
    | .var name => return h.append (.var name)
    | .idx index => return h.append (.idx index)
    | .abs binder body =>
      let (h, body) ← copyWithin depth h body
      return h.append (.abs binder body)
    | .lam body =>
      let (h, body) ← copyWithin depth h body
      return h.append (.lam body)
    | .app fn arg =>
      let (h, fn) ← copyWithin depth h fn
      let (h, arg) ← copyWithin depth h arg
      return h.append (.app fn arg)

/-- Copies the term under `slot` and gives the slot of the copy. -/
def copy (h : Heap) (slot : Slot) : Except Fault (Heap × Slot) :=
  copyWithin h.depthBound h slot

end WeakHead.Heap

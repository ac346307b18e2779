import WeakHead.Heap.Basic

/-!
# Compaction

Reduction leaves nodes behind that nothing refers to any more. Compaction moves the nodes that the
root still reaches into a heap of their own: the parts of a node before the node, the left part
before the right one. A node that several paths reach is moved once, and stays shared. Slots of the
old heap mean nothing in the new one.
-/

namespace WeakHead

/-- A compaction under way. -/
structure Compaction where
  /-- The new slots of the nodes that were moved, by their old slots. -/
  newSlots : Array (Option Slot)
  /-- The new heap so far. -/
  target : Heap
deriving Inhabited

namespace Compaction

/-- Before the first move out of a heap. -/
def start (h : Heap) : Compaction :=
  ⟨Array.replicate h.size none, .empty⟩

/-- The new slot of the node in `slot`, if it was moved. -/
def newSlot? (c : Compaction) (slot : Slot) : Option Slot :=
  (c.newSlots[slot]?).join

/-- Moves a node whose parts have been moved, and gives its new slot. -/
def move (c : Compaction) (slot : Slot) (node : Node) : Compaction × Slot :=
  let (target, fresh) := c.target.append node
  (⟨c.newSlots.setIfInBounds slot (some fresh), target⟩, fresh)

/-- Moves the term under `slot` of the heap `h`, at most `depth` deep, and gives its new slot. -/
def carry (h : Heap) : Nat → Compaction → Slot → Except Fault (Compaction × Slot)
  | 0, _, slot => .error (.endless slot)
  | depth + 1, c, slot =>
    match c.newSlot? slot with
    | some fresh => return (c, fresh)
    | none => do
      match ← h.get slot with
      | .var name => return c.move slot (.var name)
      | .idx index => return c.move slot (.idx index)
      | .abs binder body =>
        let (c, body) ← carry h depth c body
        return c.move slot (.abs binder body)
      | .lam body =>
        let (c, body) ← carry h depth c body
        return c.move slot (.lam body)
      | .app fn arg =>
        let (c, fn) ← carry h depth c fn
        let (c, arg) ← carry h depth c arg
        return c.move slot (.app fn arg)

end Compaction

/-- A graph after its compaction. -/
structure Compacted where
  graph : Graph
  /-- The number of nodes in the new heap. -/
  live : Nat
  /-- The number of nodes that were left behind. -/
  freed : Nat
deriving DecidableEq, Repr, Inhabited

/-- Moves what the root of a graph reaches into a heap of its own. -/
def Graph.compact (g : Graph) : Except Fault Compacted := do
  let (c, root) ← Compaction.carry g.heap g.heap.depthBound (.start g.heap) g.root
  return ⟨⟨c.target, root⟩, c.target.size, g.heap.size - c.target.size⟩

end WeakHead

import WeakHead.Heap.Node

/-!
# The heap

A heap is a row of nodes that only grows at its end. Slots count from zero in the order in which
nodes were appended, and a slot keeps its place for good; what stands in it can be overwritten.
Nothing keeps a part from being shared, from dangling, or from leading back to its whole: the
operations say what they do on any heap.

`get` is the view of a heap; the lemmas tell what each operation does to it.
-/

namespace WeakHead

/-- A row of nodes. -/
structure Heap where
  nodes : Array Node
deriving DecidableEq, Repr, Inhabited

namespace Heap

/-- The heap without nodes. -/
def empty : Heap :=
  ⟨#[]⟩

/-- The number of nodes, which is the slot that the next node gets. -/
def size (h : Heap) : Nat :=
  h.nodes.size

/-- The heap with one more node at its end. -/
def push (h : Heap) (node : Node) : Heap :=
  ⟨h.nodes.push node⟩

/-- The heap with one more node at its end, and the slot of that node. -/
def append (h : Heap) (node : Node) : Heap × Slot :=
  let slot := h.size
  (h.push node, slot)

/-- The node in a slot. -/
def get (h : Heap) (slot : Slot) : Except Fault Node :=
  match h.nodes[slot]? with
  | some node => .ok node
  | none => .error (.dangling slot h.size)

/-- The heap with `node` in place of what stands in `slot`; as it is if there is no such slot. -/
def put (h : Heap) (slot : Slot) (node : Node) : Heap :=
  ⟨h.nodes.setIfInBounds slot node⟩

/-- Copies the node in `source` over the one in `target`. The source is read first. -/
def copyOver (h : Heap) (target source : Slot) : Except Fault Heap :=
  match h.get source with
  | .error fault => .error fault
  | .ok node =>
    if target < h.size then .ok (h.put target node) else .error (.unwritable target h.size)

/-- Gives the index variable in `slot` another index. -/
def reindex (h : Heap) (slot : Slot) (index : Nat) : Except Fault Heap :=
  match h.nodes[slot]? with
  | some (.idx _) => .ok (h.put slot (.idx index))
  | some node => .error (.notIndex slot node)
  | none => .error (.unwritable slot h.size)

/-- The longest path that visits no slot twice has as many slots as the heap, and one more step can
only fail; a walk that goes deeper has met a slot below itself. -/
def depthBound (h : Heap) : Nat :=
  h.size + 1

/-! ### What the operations do to the view -/

/-- Reading succeeds exactly on the slots of the heap. -/
theorem get_eq_ok_iff {h : Heap} {slot : Slot} {node : Node} :
    h.get slot = .ok node ↔ h.nodes[slot]? = some node := by
  unfold get
  split <;> simp_all

/-- A slot that can be read lies in the heap. -/
theorem lt_size_of_get_eq_ok {h : Heap} {slot : Slot} {node : Node} (hg : h.get slot = .ok node) :
    slot < h.size := by
  obtain ⟨hlt, -⟩ := Array.getElem?_eq_some_iff.1 (get_eq_ok_iff.1 hg)
  exact hlt

@[simp] theorem size_empty : empty.size = 0 := rfl

@[simp] theorem size_push (h : Heap) (node : Node) : (h.push node).size = h.size + 1 := by
  simp [push, size]

@[simp] theorem size_put (h : Heap) (slot : Slot) (node : Node) :
    (h.put slot node).size = h.size := by
  simp [put, size]

theorem get_push_size (h : Heap) (node : Node) : (h.push node).get h.size = .ok node := by
  simp [get_eq_ok_iff, push, size]

theorem get_push_of_lt {h : Heap} {slot : Slot} (node : Node) (hs : slot < h.size) :
    (h.push node).get slot = h.get slot := by
  have hne : slot ≠ h.nodes.size := Nat.ne_of_lt hs
  have hlt : slot < h.nodes.size + 1 := Nat.lt_succ_of_lt hs
  simp [get, push, Array.getElem?_push, hne]
  simp_all [size]

theorem get_put_self {h : Heap} {slot : Slot} (node : Node) (hs : slot < h.size) :
    (h.put slot node).get slot = .ok node := by
  simp only [size] at hs
  simp [get_eq_ok_iff, put, hs]

theorem get_put_of_ne {h : Heap} {slot other : Slot} (node : Node) (hne : other ≠ slot) :
    (h.put slot node).get other = h.get other := by
  simp [get, put, size, Array.getElem?_setIfInBounds_ne hne.symm]

/-- A node can be copied if both slots are there, and only the target changes. -/
theorem copyOver_eq_ok_iff {h h' : Heap} {target source : Slot} :
    h.copyOver target source = .ok h' ↔
      ∃ node, h.get source = .ok node ∧ target < h.size ∧ h' = h.put target node := by
  unfold copyOver
  cases hg : h.get source with
  | error fault => simp
  | ok node =>
    by_cases ht : target < h.size
    · simp [ht, eq_comm]
    · simp [ht]

/-- An index can be changed where there is one, and only its slot changes. -/
theorem reindex_eq_ok_iff {h h' : Heap} {slot : Slot} {index : Nat} :
    h.reindex slot index = .ok h' ↔
      (∃ old, h.get slot = .ok (.idx old)) ∧ h' = h.put slot (.idx index) := by
  simp only [get_eq_ok_iff, reindex]
  cases hn : h.nodes[slot]? with
  | none => simp
  | some node => cases node <;> simp [eq_comm]

end Heap

/-- A heap with the slot where a term starts. -/
structure Graph where
  heap : Heap
  root : Slot
deriving DecidableEq, Repr, Inhabited

/-- A heap and a root, which has to be one of its slots. -/
def Graph.of (heap : Heap) (root : Slot) : Except Fault Graph :=
  if root < heap.size then .ok ⟨heap, root⟩ else .error (.rootOutside root)

end WeakHead

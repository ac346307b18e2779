import WeakHead.FreeNames
import WeakHead.Heap.Basic

/-!
# Resolution of names

Resolution turns a term with names into a term with indices. A variable that is bound gets the
number of binders between it and the innermost binder of its name. A free variable gets the number
of its name in the table of free names plus the number of binders around it, so that its index
points past all of them.

The new nodes are appended to the heap, the parts of a node before the node, the left part before
the right one; the named nodes stay as they are. All reading is done in the heap as it was given.
-/

namespace WeakHead

/-- What became of one variable. -/
structure Occurrence where
  name : String
  index : Nat
  /-- The number of binders around the variable. -/
  depth : Nat
deriving DecidableEq, Repr

/-- The outcome of a resolution so far. -/
structure Resolution where
  /-- The new nodes, in the order in which they will stand in the heap. -/
  nodes : Array Node
  free : FreeNames
  /-- The variables from left to right. -/
  occurrences : Array Occurrence
deriving Inhabited

namespace Resolution

/-- Before the first variable. -/
def empty : Resolution :=
  ⟨#[], .empty, #[]⟩

/-- Adds a node, which will stand `base` slots further on in the heap. -/
def add (r : Resolution) (base : Nat) (node : Node) : Slot × Resolution :=
  let slot := base + r.nodes.size
  (slot, { r with nodes := r.nodes.push node })

/-- The index of a variable under the binders `scope`, innermost first. Free names are entered into
the table. -/
def indexOf (free : FreeNames) (scope : List String) (name : String) : Nat × FreeNames :=
  match scope.idxOf? name with
  | some distance => (distance, free)
  | none =>
    let (id, free) := free.enter name
    (id + scope.length, free)

/-- Adds the index variable for `name`. -/
def addVar (r : Resolution) (base : Nat) (scope : List String) (name : String) :
    Slot × Resolution :=
  let (index, free) := indexOf r.free scope name
  let occurrences := r.occurrences.push ⟨name, index, scope.length⟩
  add { r with free, occurrences } base (.idx index)

/-- Resolves the term under `slot`, at most `depth` deep, inside the binders `scope`, innermost
first. Gives the slot of its new root. -/
def within (h : Heap) : Nat → List String → Slot → Resolution → Except Fault (Slot × Resolution)
  | 0, _, slot, _ => .error (.endless slot)
  | depth + 1, scope, slot, r => do
    match ← h.get slot with
    | .var name => return r.addVar h.size scope name
    | .abs binder body =>
      let (body, r) ← within h depth (binder :: scope) body r
      return r.add h.size (.lam body)
    | .app fn arg =>
      let (fn, r) ← within h depth scope fn r
      let (arg, r) ← within h depth scope arg r
      return r.add h.size (.app fn arg)
    | .idx index => throw (.resolvedBefore slot (.idx index))
    | .lam body =>
      let _ ← within h depth scope body r
      throw (.resolvedBefore slot (.lam body))

end Resolution

/-- A graph with indices, and the table that tells what its free indices stand for. -/
structure Resolved where
  graph : Graph
  free : FreeNames
  occurrences : Array Occurrence
deriving Inhabited

/-- Resolves the names of the term at the root of a graph. -/
def Graph.resolve (g : Graph) : Except Fault Resolved := do
  let (root, r) ← Resolution.within g.heap g.heap.depthBound [] g.root .empty
  return ⟨⟨⟨g.heap.nodes ++ r.nodes⟩, root⟩, r.free, r.occurrences⟩

end WeakHead

import WeakHead.Heap.Resolution
import WeakHead.Heap.Walk

/-!
# Resolution along a walk

Names can also be resolved by following the events of a walk. The resolver then keeps two stacks:
the names of the binders that were entered and not left, and the roots that were built and are not
part of a node yet. The new node is added when the old one is left, and takes its parts from the
second stack.

Nothing in the types makes the stacks fit the walk. Where they do not, the resolver gives up: a part
is missing, a binder is left that was not entered last, or there is an index already.
-/

namespace WeakHead

/-- A resolver in the middle of a walk. -/
structure Resolver where
  /-- The names of the binders around, innermost first. -/
  scope : List String
  /-- The new nodes and the table so far. -/
  resolution : Resolution
  /-- The new roots that are not part of a node yet, the last one first. -/
  built : List Slot

namespace Resolver

/-- Before the first event. -/
def start : Resolver :=
  ⟨[], .empty, []⟩

/-- Adds a node whose parts were taken from the stack, `rest` being what is left there. -/
def emit (r : Resolver) (base : Nat) (node : Node) (rest : List Slot) : Resolver :=
  let (root, resolution) := r.resolution.add base node
  { r with resolution, built := root :: rest }

/-- Adds the index variable for `name`. -/
def emitVar (r : Resolver) (base : Nat) (name : String) : Resolver :=
  let (root, resolution) := r.resolution.addVar base r.scope name
  { r with resolution, built := root :: r.built }

/-- The resolver after the walk has left `node`. -/
def leave (r : Resolver) (base : Nat) : Node → Option Resolver
  | .var name => some (r.emitVar base name)
  | .abs binder _ =>
    match r.scope, r.built with
    | name :: scope, body :: rest =>
      if name = binder then some ({ r with scope }.emit base (.lam body) rest) else none
    | _, _ => none
  | .app _ _ =>
    match r.built with
    | arg :: fn :: rest => some (r.emit base (.app fn arg) rest)
    | _ => none
  | .idx _ | .lam _ => none

/-- The resolver after an event of a walk over the heap. -/
def visit (h : Heap) (r : Resolver) : Visit → Option Resolver
  | .enter slot =>
    match h.nodes[slot]? with
    | some (.abs binder _) => some { r with scope := binder :: r.scope }
    | _ => some r
  | .leave slot => h.nodes[slot]?.bind (r.leave h.size)

/-- The resolver after the events of a walk. -/
def run (h : Heap) : List Visit → Resolver → Option Resolver
  | [], r => some r
  | event :: events, r => (r.visit h event).bind (run h events)

end Resolver

/-- Resolves the names of the term at the root of a graph by a walk; `none` if the resolver gives up
or does not end with one root. -/
def Graph.resolveByWalk (g : Graph) : Except Fault (Option Resolved) := do
  let events ← g.heap.visits g.root
  match Resolver.run g.heap events.toList .start with
  | some ⟨_, r, [root]⟩ =>
    return some ⟨⟨⟨g.heap.nodes ++ r.nodes⟩, root⟩, r.free, r.occurrences⟩
  | _ => return none

end WeakHead

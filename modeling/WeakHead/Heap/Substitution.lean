import WeakHead.Heap.Copy
import WeakHead.Heap.Shift

/-!
# Substitution in place

`substitute` puts a copy of the term under `replacement` over each variable with the index `level`,
where the level counts the binders crossed on the way. A copy that goes under binders is shifted by
their number, so that its free indices keep pointing at the same binders. The root of the copy moves
into the slot of the variable; the slot in which the copy was built stays behind unused.

A slot that was replaced is not entered by the same visit. Where nodes are shared another path may
lead to it, and then the walk goes on into the copy. The bound on its depth therefore comes in two
parts: the parts of a node that is older than the call never change, so a path through such nodes is
no longer than the old heap unless it comes round to where it was, and then it gets its `patience`;
the nodes of copies are parts of copies only, and no path through them is longer than the heap when
it enters them.
-/

namespace WeakHead.Heap

/-- Puts a copy of `replacement`, taken under `crossed` more binders, over the node in `slot`. -/
def replaceByCopy (h : Heap) (slot replacement : Slot) (crossed : Nat) : Except Fault Heap := do
  let (h, copied) ← h.copy replacement
  let h ← if crossed = 0 then pure h else h.shift copied 0 crossed
  h.copyOver slot copied

/-- Substitution at the node in `slot`, where `descend` does the work for its parts. -/
@[specialize] def substituteAt (replacement : Slot)
    (descend : Heap → Slot → Nat → Nat → Except Fault Heap)
    (h : Heap) (slot : Slot) (level crossed : Nat) : Except Fault Heap := do
  match ← h.get slot with
  | .idx index =>
    if index = level then h.replaceByCopy slot replacement crossed else return h
  | .lam body =>
    let level ← crossBinder level
    descend h body level (crossed + 1)
  | .app fn arg =>
    let h ← descend h fn level crossed
    descend h arg level crossed
  | .var name => throw (.namedInSubstitution (.var name))
  | .abs binder body => throw (.namedInSubstitution (.abs binder body))

/-- Substitution in the term under `slot`, at most `depth` deep. -/
def substituteWithin (replacement : Slot) :
    Nat → Heap → Slot → (level crossed : Nat) → Except Fault Heap
  | 0, _, slot, _, _ => .error (.endless slot)
  | depth + 1, h, slot, level, crossed =>
    substituteAt replacement (substituteWithin replacement depth) h slot level crossed

/-- Substitution in a term that consists of nodes below `old`, at most `depth` deep, and of copies
made since. -/
def substituteAmongOld (replacement old : Slot) :
    Nat → Heap → Slot → (level crossed : Nat) → Except Fault Heap
  | 0, _, slot, _, _ => .error (.endless slot)
  | depth + 1, h, slot, level, crossed =>
    if slot < old then
      substituteAt replacement (substituteAmongOld replacement old depth) h slot level crossed
    else substituteWithin replacement h.depthBound h slot level crossed

/-- Replaces every variable under `slot` with the index `level` by its own copy of the term under
`replacement`. -/
def substitute (h : Heap) (slot replacement : Slot) (level : Nat) : Except Fault Heap :=
  substituteAmongOld replacement h.size (h.depthBound + patience) h slot level 0

end WeakHead.Heap

import WeakHead.Heap.Substitution

/-!
# Substitution that raises on the way

Substitution can also be told with one counter only. Instead of counting the binders that it has
crossed, the walk moves what it puts in along with itself: the replacement is raised in place when a
binder is entered and lowered again when it is left, so that a plain copy of it fits wherever the
walk is.
-/

namespace WeakHead.Heap

/-- Substitution in the term under `slot`, at most `depth` deep, by plain copies of a replacement
that is moved along. -/
def substituteByRaisingWithin (replacement : Slot) :
    Nat → Heap → Slot → (level : Nat) → Except Fault Heap
  | 0, _, slot, _ => .error (.endless slot)
  | depth + 1, h, slot, level => do
    match ← h.get slot with
    | .idx index => if index = level then h.replaceByCopy slot replacement 0 else return h
    | .lam body =>
      let level ← crossBinder level
      let h ← h.shift replacement 0 1
      let h ← substituteByRaisingWithin replacement depth h body level
      h.shift replacement 0 (-1)
    | .app fn arg =>
      let h ← substituteByRaisingWithin replacement depth h fn level
      substituteByRaisingWithin replacement depth h arg level
    | .var name => throw (.namedInSubstitution (.var name))
    | .abs binder body => throw (.namedInSubstitution (.abs binder body))

/-- Replaces every variable under `slot` with the index `level` by its own copy of the term under
`replacement`, which is moved along with the walk. -/
def substituteByRaising (h : Heap) (slot replacement : Slot) (level : Nat) : Except Fault Heap :=
  substituteByRaisingWithin replacement h.depthBound h slot level

end WeakHead.Heap

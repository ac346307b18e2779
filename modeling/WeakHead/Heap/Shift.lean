import WeakHead.Heap.Basic

/-!
# Shifting indices in place

`shift` adds an amount to the indices under a slot that point past `cutoff` binders, as is needed
when a term moves into or out of binders. The cutoff grows by one under each binder. Slots are
overwritten as they are met, so a node to which two paths lead is shifted twice.
-/

namespace WeakHead

/-- The counter of binders one binder further in; it has to stay an index. -/
def crossBinder (count : Nat) : Except Fault Nat :=
  if count + 1 < indexBound then .ok (count + 1) else .error .tooManyBinders

/-- The index of the variable in `slot` moved by `amount`; it has to stay an index. -/
def moveIndex (slot : Slot) (index : Nat) (amount : Int) : Except Fault Nat :=
  let moved := (index : Int) + amount
  if 0 ≤ moved ∧ moved < indexBound then .ok moved.toNat
  else .error (.indexOutside slot index amount)

/-- A binder can be crossed as long as the count stays an index. -/
theorem crossBinder_eq_ok_iff {count inner : Nat} :
    crossBinder count = .ok inner ↔ count + 1 < indexBound ∧ inner = count + 1 := by
  unfold crossBinder
  by_cases h : count + 1 < indexBound
  · simp [h, eq_comm]
  · simp [h]

/-- An index can be moved as long as it stays an index. -/
theorem moveIndex_eq_ok_iff {slot : Slot} {index moved : Nat} {amount : Int} :
    moveIndex slot index amount = .ok moved ↔
      (index : Int) + amount = moved ∧ moved < indexBound := by
  unfold moveIndex
  by_cases h : 0 ≤ (index : Int) + amount ∧ (index : Int) + amount < indexBound
  · simp only [h, and_self, if_true, Except.ok.injEq]
    omega
  · simp only [h, if_false, reduceCtorEq, false_iff]
    omega

namespace Heap

/-- Shifts the term under `slot`, at most `depth` deep. -/
def shiftWithin : Nat → Heap → Slot → (cutoff : Nat) → (amount : Int) → Except Fault Heap
  | 0, _, slot, _, _ => .error (.endless slot)
  | depth + 1, h, slot, cutoff, amount => do
    match ← h.get slot with
    | .idx index =>
      if cutoff ≤ index then
        let moved ← moveIndex slot index amount
        return h.put slot (.idx moved)
      else return h
    | .lam body =>
      let cutoff ← crossBinder cutoff
      shiftWithin depth h body cutoff amount
    | .app fn arg =>
      let h ← shiftWithin depth h fn cutoff amount
      shiftWithin depth h arg cutoff amount
    | .var name => throw (.namedInShift (.var name))
    | .abs binder body => throw (.namedInShift (.abs binder body))

/-- A walk that changes the heap may come round to where it was and still end on a later turn: the
indices on its way and its counters of binders move on each turn, until one leaves the range. It is
followed for this many steps more before it is called endless. -/
def patience : Nat := 1048576

/-- Adds `amount` to every index under `slot` that is at least `cutoff`, where the cutoff counts
the binders crossed on the way. -/
def shift (h : Heap) (slot : Slot) (cutoff : Nat) (amount : Int) : Except Fault Heap :=
  shiftWithin (h.depthBound + patience) h slot cutoff amount

end Heap

end WeakHead

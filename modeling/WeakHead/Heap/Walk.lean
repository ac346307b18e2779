import WeakHead.Heap.Basic

/-!
# Walks over the heap

A walk goes through the nodes under a slot, the left part of a node before the right one. A node is
met once for each path that leads to it. Three walks only look: `visits` lists when nodes are
entered and left, `sizeFrom` counts them, and `bracketed` writes the term out in full.

Each walk carries the number of steps it may still go down, and starts with `Heap.depthBound`.
-/

namespace WeakHead

/-- An event of a walk: a node is entered before its parts and left after them. -/
inductive Visit where
  | enter (slot : Slot)
  | leave (slot : Slot)
deriving DecidableEq, Repr

/-- The text of an event. -/
def Visit.text : Visit → String
  | enter slot => "enter " ++ slotText slot
  | leave slot => "exit " ++ slotText slot

namespace Heap

/-- Adds the events of the walk under `slot` to `events`. -/
def visitsWithin (h : Heap) : Nat → Slot → Array Visit → Except Fault (Array Visit)
  | 0, slot, _ => .error (.endless slot)
  | depth + 1, slot, events => do
    let node ← h.get slot
    let events := events.push (.enter slot)
    let events ← match node with
      | .var _ | .idx _ => pure events
      | .abs _ body | .lam body => h.visitsWithin depth body events
      | .app fn arg => do
        let events ← h.visitsWithin depth fn events
        h.visitsWithin depth arg events
    return events.push (.leave slot)

/-- The events of the walk under `slot`, in order. -/
def visits (h : Heap) (slot : Slot) : Except Fault (Array Visit) :=
  h.visitsWithin h.depthBound slot #[]

/-- The number of nodes under `slot`, at most `depth` deep. -/
def sizeWithin (h : Heap) : Nat → Slot → Except Fault Nat
  | 0, slot => .error (.endless slot)
  | depth + 1, slot => do
    match ← h.get slot with
    | .var _ | .idx _ => return 1
    | .abs _ body | .lam body => return (← h.sizeWithin depth body) + 1
    | .app fn arg =>
      let left ← h.sizeWithin depth fn
      let right ← h.sizeWithin depth arg
      return left + right + 1

/-- The number of nodes under `slot`, a node counted once for each path to it. -/
def sizeFrom (h : Heap) (slot : Slot) : Except Fault Nat :=
  h.sizeWithin h.depthBound slot

/-- Writes the term under `slot` behind `out`. -/
def bracketedWithin (h : Heap) : Nat → Slot → String → Except Fault String
  | 0, slot, _ => .error (.endless slot)
  | depth + 1, slot, out => do
    match ← h.get slot with
    | .var name => return out ++ name
    | .idx index => return out ++ toString index
    | .abs binder body =>
      let out ← h.bracketedWithin depth body (out ++ "(λ " ++ binder ++ " ")
      return out ++ ")"
    | .lam body =>
      let out ← h.bracketedWithin depth body (out ++ "(λ ")
      return out ++ ")"
    | .app fn arg =>
      let out ← h.bracketedWithin depth fn (out ++ "(")
      let out ← h.bracketedWithin depth arg (out ++ " ")
      return out ++ ")"

/-- The term under `slot` in bracketed form: every abstraction and application has parentheses. -/
def bracketed (h : Heap) (slot : Slot) : Except Fault String :=
  h.bracketedWithin h.depthBound slot ""

end Heap

end WeakHead

import WeakHead.Heap.Substitution

/-!
# Contraction of the head redex

The spine of a term goes from its root to the function of the application found there, and on to the
function of that one. A term is in weak head normal form if its spine ends without meeting an
abstraction that is applied. Only nodes of the spine are looked at, so that no argument and no body
is touched before it comes to the head.

A contraction happens in place: the slot of the application becomes the reduced body, and the slots
of the abstraction and of the argument stay behind unused.
-/

namespace WeakHead

/-- An application of an abstraction. -/
structure Redex where
  /-- The slot of the application. -/
  slot : Slot
  /-- The body of the abstraction. -/
  body : Slot
  /-- The argument. -/
  arg : Slot
deriving DecidableEq, Repr

namespace Heap

/-- Looks for the redex on the spine from `slot`, at most `depth` nodes long. -/
def headRedexWithin (h : Heap) : Nat → Slot → Except Fault (Option Redex)
  | 0, slot => .error (.endless slot)
  | depth + 1, slot => do
    match ← h.get slot with
    | .app fn arg =>
      match ← h.get fn with
      | .lam body => return some ⟨slot, body, arg⟩
      | _ => h.headRedexWithin depth fn
    | .idx _ | .lam _ => return none
    | .var name => throw (.namedOnSpine slot (.var name))
    | .abs binder body => throw (.namedOnSpine slot (.abs binder body))

/-- The redex on the spine from `root`; `none` in weak head normal form. -/
def headRedex (h : Heap) (root : Slot) : Except Fault (Option Redex) :=
  h.headRedexWithin h.depthBound root

/-- Turns the application of an abstraction into the body with the argument put in. The argument is
raised over the binder that it enters, and the result lowered because that binder is gone. -/
def contract (h : Heap) (redex : Redex) : Except Fault Heap := do
  let h ← h.shift redex.arg 0 1
  let h ← h.substitute redex.body redex.arg 0
  let h ← h.shift redex.body 0 (-1)
  h.copyOver redex.slot redex.body

/-- Contracts the redex on the spine from `root`, if there is one. Gives the slot that was
contracted. -/
def step (h : Heap) (root : Slot) : Except Fault (Heap × Option Slot) := do
  match ← h.headRedex root with
  | none => return (h, none)
  | some redex => return (← h.contract redex, some redex.slot)

end Heap

end WeakHead

import WeakHead.Heap.Contraction

/-!
# Reduction to weak head normal form

A reduction contracts the redex on the spine again and again until there is none. It may be given a
budget of steps; a term that is not in weak head normal form when the budget is used up says nothing
about whether it has one.

Without a budget a reduction need not end. `whnf` is told how many steps it may look at and answers
`none` if the reduction goes on after them; every greater number gives the same answer as one that
was enough.
-/

namespace WeakHead

/-- How a reduction ended, and after how many steps. -/
inductive Outcome where
  /-- The root is in weak head normal form. -/
  | reached (steps : Nat)
  /-- The budget is used up and there is still a redex. -/
  | exhausted (steps : Nat)
deriving DecidableEq, Repr

/-- The number of steps that were taken. -/
def Outcome.steps : Outcome → Nat
  | reached steps => steps
  | exhausted steps => steps

/-- A heap after some steps, with the slots that were contracted, in order. -/
structure Run where
  heap : Heap
  contracted : Array Slot
deriving DecidableEq, Repr, Inhabited

namespace Run

/-- The number of steps that were taken. -/
def steps (r : Run) : Nat :=
  r.contracted.size

/-- Before the first step. -/
def start (h : Heap) : Run :=
  ⟨h, #[]⟩

/-- Goes on for at most `budget` steps. -/
def continueWithin (root : Slot) : (budget : Nat) → Run → Except Fault (Run × Outcome)
  | 0, r => do
    match ← r.heap.headRedex root with
    | none => return (r, .reached r.steps)
    | some _ => return (r, .exhausted r.steps)
  | budget + 1, ⟨heap, contracted⟩ => do
    match ← heap.step root with
    | (heap, none) => return (⟨heap, contracted⟩, .reached contracted.size)
    | (heap, some slot) => continueWithin root budget ⟨heap, contracted.push slot⟩

/-- Goes on to the end, if it comes within `fuel` steps. -/
def continueToEnd (root : Slot) : (fuel : Nat) → Run → Except Fault (Option Run)
  | 0, _ => return none
  | fuel + 1, ⟨heap, contracted⟩ => do
    match ← heap.step root with
    | (heap, none) => return some ⟨heap, contracted⟩
    | (heap, some slot) => continueToEnd root fuel ⟨heap, contracted.push slot⟩

end Run

namespace Heap

/-- Reduces with a budget of steps. -/
def whnfWithin (h : Heap) (root : Slot) (budget : Nat) : Except Fault (Run × Outcome) :=
  Run.continueWithin root budget (.start h)

/-- Reduces without a budget; `none` if that takes `fuel` steps or more. -/
def whnf (fuel : Nat) (h : Heap) (root : Slot) : Except Fault (Option Run) :=
  Run.continueToEnd root fuel (.start h)

/-- Reduces with a budget, or without one if `budget` is `none`. -/
def reduce (fuel : Nat) (h : Heap) (root : Slot) (budget : Option Nat) :
    Except Fault (Option (Run × Outcome)) := do
  match budget with
  | some budget => return some (← h.whnfWithin root budget)
  | none =>
    match ← h.whnf fuel root with
    | some r => return some (r, .reached r.steps)
    | none => return none

end Heap

end WeakHead

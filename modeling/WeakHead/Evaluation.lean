import WeakHead.Heap.Layout
import WeakHead.Heap.Readback
import WeakHead.Heap.Resolution
import WeakHead.Heap.Walk
import WeakHead.Reduction
import WeakHead.Term.Reader

/-!
# Evaluation of a source

A source is read as a term, the term is put into a heap, its names are resolved there, and the
result is reduced to weak head normal form.
-/

namespace WeakHead

/-- The reason why a source has no result. -/
inductive Failure where
  /-- The source is no term. -/
  | unreadable (error : SyntaxError)
  /-- An operation on the heap stopped. -/
  | broken (fault : Fault)
  /-- There is no budget, and the reduction goes on for longer than it was watched. -/
  | unsettled
deriving DecidableEq, Repr

namespace Failure

/-- The message of a failure. Reading stops at the first error, so there is one. -/
def message : Failure → String
  | unreadable _ => "1 syntax error(s)"
  | broken fault => fault.message
  | unsettled => "no end in sight"

/-- The result of reading, with its error as a failure. -/
def ofReading {α : Type} : Except SyntaxError α → Except Failure α
  | .ok a => .ok a
  | .error e => .error (.unreadable e)

/-- The result of an operation on a heap, with its fault as a failure. -/
def ofHeap {α : Type} : Except Fault α → Except Failure α
  | .ok a => .ok a
  | .error f => .error (.broken f)

end Failure

/-- The graph of the term that a source stands for, with names. -/
def Graph.read (source : String) : Except SyntaxError Graph :=
  match Term.parse source with
  | .ok t => .ok (.ofTerm t)
  | .error e => .error e

/-- The graph of the term that a source stands for, with its names resolved. -/
def Resolved.read (source : String) : Except Failure Resolved := do
  let named ← Failure.ofReading (Graph.read source)
  Failure.ofHeap named.resolve

/-- The term at the root of a graph in bracketed form. -/
def Graph.bracketed (g : Graph) : Except Fault String :=
  g.heap.bracketed g.root

/-- The number of nodes under the root of a graph. -/
def Graph.size (g : Graph) : Except Fault Nat :=
  g.heap.sizeFrom g.root

/-- A source after its reduction. -/
structure Evaluation where
  /-- The graph at the end of the reduction. -/
  graph : Graph
  /-- The names of the free variables. -/
  free : FreeNames
  /-- What became of the variables of the source. -/
  occurrences : Array Occurrence
  /-- The slots that were contracted, in order. -/
  contracted : Array Slot
  outcome : Outcome

namespace Evaluation

/-- The result in bracketed form. -/
def bracketed (e : Evaluation) : Except Fault String :=
  e.graph.bracketed

/-- The result in the source notation, with free variables under their own names. -/
def readback (e : Evaluation) : Except Fault String :=
  e.graph.readback e.free

end Evaluation

/-- Evaluates a source, with a budget of steps, or without one as long as that takes less than
`fuel` steps. -/
def evaluate (fuel : Nat) (source : String) (budget : Option Nat) :
    Except Failure Evaluation := do
  let ⟨⟨heap, root⟩, free, occurrences⟩ ← Resolved.read source
  match ← Failure.ofHeap (heap.reduce fuel root budget) with
  | none => throw .unsettled
  | some (⟨heap, contracted⟩, outcome) =>
    return ⟨⟨heap, root⟩, free, occurrences, contracted, outcome⟩

end WeakHead

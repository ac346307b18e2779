import WeakHead.BinderNames
import WeakHead.FreeNames
import WeakHead.Heap.Basic

/-!
# Readback

Readback writes a term with indices in the source notation. Binders get names that no free variable
has, so nothing is captured; free indices get the names of the table, and `?` with the number where
the table has no name.
-/

namespace WeakHead

/-- A readback under way: the text so far and the supply of binder names. -/
structure Readback where
  out : String
  binders : BinderNames
deriving Inhabited

namespace Readback

/-- Before the first node. -/
def start (free : FreeNames) : Readback :=
  ⟨"", .avoiding free.names⟩

/-- Writes `text`. -/
def write (r : Readback) (text : String) : Readback :=
  { r with out := r.out ++ text }

/-- Writes the name of the binder inside `depth` others. -/
def writeBinder (r : Readback) (depth : Nat) : Readback :=
  let (name, binders) := r.binders.nameAt depth
  ⟨r.out ++ name, binders⟩

/-- The text for the free variable with number `id`. -/
def freeText (free : FreeNames) (id : Nat) : String :=
  match free.name? id with
  | some name => name
  | none => "?" ++ toString id

/-- Writes the term under `slot`, at most `bound` deep, that stands inside `depth` binders. -/
def within (h : Heap) (free : FreeNames) :
    (bound : Nat) → Slot → (depth : Nat) → Readback → Except Fault Readback
  | 0, slot, _, _ => .error (.endless slot)
  | bound + 1, slot, depth, r => do
    match ← h.get slot with
    | .idx index =>
      if index < depth then return r.writeBinder (depth - 1 - index)
      else return r.write (freeText free (index - depth))
    | .lam body =>
      let r := ((r.write "λ").writeBinder depth).write "."
      within h free bound body (depth + 1) r
    | .app fn arg =>
      let r ← within h free bound fn depth (r.write "(")
      let r ← within h free bound arg depth (r.write " ")
      return r.write ")"
    | .var name => throw (.namedInReadback (.var name))
    | .abs binder body => throw (.namedInReadback (.abs binder body))

end Readback

/-- The term at the root of a graph in the source notation. -/
def Graph.readback (g : Graph) (free : FreeNames) : Except Fault String := do
  let r ← Readback.within g.heap free g.heap.depthBound g.root 0 (.start free)
  return r.out

end WeakHead

import WeakHead.Heap.Basic
import WeakHead.IndexTerm
import WeakHead.Term

/-!
# What a slot stands for

A slot unfolds to the term that is found by following its parts, if all of them are there, all are
of one kind, and none comes round to where it was. A path through a heap is the list of the parts
that were chosen; a slot spans a tree if no two paths from it lead to the same slot.

Main statement: a slot unfolds to at most one term.
-/

namespace WeakHead.Heap

/-- The slot stands for a term with indices. -/
inductive Unfolds (h : Heap) : Slot → IndexTerm → Prop where
  | idx {slot : Slot} {index : Nat} :
    h.get slot = .ok (.idx index) → Unfolds h slot (.idx index)
  | lam {slot body : Slot} {t : IndexTerm} :
    h.get slot = .ok (.lam body) → Unfolds h body t → Unfolds h slot (.lam t)
  | app {slot fn arg : Slot} {t u : IndexTerm} :
    h.get slot = .ok (.app fn arg) → Unfolds h fn t → Unfolds h arg u →
    Unfolds h slot (.app t u)

/-- The slot stands for a term with names. -/
inductive UnfoldsNamed (h : Heap) : Slot → Term → Prop where
  | var {slot : Slot} {name : String} :
    h.get slot = .ok (.var name) → UnfoldsNamed h slot (.var name)
  | abs {slot body : Slot} {binder : String} {t : Term} :
    h.get slot = .ok (.abs binder body) → UnfoldsNamed h body t →
    UnfoldsNamed h slot (.abs binder t)
  | app {slot fn arg : Slot} {t u : Term} :
    h.get slot = .ok (.app fn arg) → UnfoldsNamed h fn t → UnfoldsNamed h arg u →
    UnfoldsNamed h slot (.app t u)

/-- The slot at the end of a path, if all nodes on the way are there and have the parts chosen. -/
def follow (h : Heap) (slot : Slot) : List Nat → Option Slot
  | [] => if slot < h.size then some slot else none
  | part :: path =>
    match h.nodes[slot]? with
    | some node =>
      match node.parts[part]? with
      | some next => h.follow next path
      | none => none
    | none => none

/-- Some path leads from a slot to another. -/
def Reaches (h : Heap) (slot target : Slot) : Prop :=
  ∃ path, h.follow slot path = some target

/-- No two paths from the slot lead to the same place. -/
def SpansTree (h : Heap) (slot : Slot) : Prop :=
  ∀ p q target, h.follow slot p = some target → h.follow slot q = some target → p = q

/-- The parts of all nodes are in the heap. -/
def NoDangling (h : Heap) : Prop :=
  ∀ slot node part, h.get slot = .ok node → part ∈ node.parts → part < h.size

/-- No slot is reached from itself by going down. -/
def Acyclic (h : Heap) : Prop :=
  ∀ slot path, h.follow slot path = some slot → path = []

/-- A slot unfolds to at most one term. -/
theorem Unfolds.unique {h : Heap} {slot : Slot} {t u : IndexTerm} (ht : h.Unfolds slot t)
    (hu : h.Unfolds slot u) : t = u := by
  induction ht generalizing u with
  | idx hg => cases hu <;> simp_all
  | lam hg _ ih =>
    cases hu with
    | lam hg' hb =>
      rw [hg] at hg'
      cases hg'
      rw [ih hb]
    | _ => simp_all
  | app hg _ _ ihf iha =>
    cases hu with
    | app hg' hf ha =>
      rw [hg] at hg'
      cases hg'
      rw [ihf hf, iha ha]
    | _ => simp_all

/-- A slot unfolds to at most one term with names. -/
theorem UnfoldsNamed.unique {h : Heap} {slot : Slot} {t u : Term} (ht : h.UnfoldsNamed slot t)
    (hu : h.UnfoldsNamed slot u) : t = u := by
  induction ht generalizing u with
  | var hg => cases hu <;> simp_all
  | abs hg _ ih =>
    cases hu with
    | abs hg' hb =>
      rw [hg] at hg'
      cases hg'
      rw [ih hb]
    | _ => simp_all
  | app hg _ _ ihf iha =>
    cases hu with
    | app hg' hf ha =>
      rw [hg] at hg'
      cases hg'
      rw [ihf hf, iha ha]
    | _ => simp_all

end WeakHead.Heap

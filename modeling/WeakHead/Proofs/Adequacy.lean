import WeakHead.Proofs.Heap.Scope
import WeakHead.Proofs.Term.Alpha
import WeakHead.Proofs.Term.HeadStep

/-!
# Adequacy

A source is reduced as the λ-calculus with names says: call by name, with substitution that avoids
capture, up to the names of binders. The steps in the heap and the steps of the term go side by
side: the heap has a redex as long as the term has a head step, and what is read back on the way is
the term that has come of the source.

Main statement: `steps_read_back`.
-/

namespace WeakHead

/-- The term after `n` head steps, if there are so many. -/
def Term.headSteps? : (n : Nat) → Term → Option Term
  | 0, t => some t
  | n + 1, t => t.headStep?.bind (headSteps? n)

namespace Graph

/-- The graph after `n` steps, `none` if a step before the last one finds no redex. -/
def steps? : (n : Nat) → Graph → Except Fault (Option Graph)
  | 0, g => .ok (some g)
  | n + 1, g =>
    (g.heap.step g.root).bind fun
      | (_, none) => .ok none
      | (heap, some _) => steps? n ⟨heap, g.root⟩

/-- The root of the graph stands for the term, whose free names are in the table. -/
structure Follows (free : FreeNames) (g : Graph) (t : Term) : Prop where
  tree : g.IsTreeOf (t.toIndex free.names)
  names : ∀ x ∈ t.freeNames, x ∈ free.names

variable {free : FreeNames} {g : Graph} {t : Term}

/-- Where the term has no head step the graph has no redex. -/
lemma Follows.step_of_none (fo : Follows free g t) (e : t.headStep? = none) :
    g.heap.step g.root = .ok (g.heap, none) := by
  obtain ⟨S, tr⟩ := fo.tree
  refine tr.step_of_none ?_
  rw [Term.toIndex_headStep, e]
  rfl

/-- Where the term has a head step the graph makes it. -/
lemma Follows.step_of_some (fo : Follows free g t) (hb : g.heap.size + free.size ≤ indexBound)
    {u} (e : t.headStep? = some u) :
    ∃ heap slot, g.heap.step g.root = .ok (heap, some slot) ∧ Follows free ⟨heap, g.root⟩ u := by
  obtain ⟨g', ea⟩ := fo.tree.exists_act (Term.covered_toIndex fo.names) hb .step
  obtain ⟨⟨heap, o⟩, es, rfl⟩ := map_eq_ok_iff.1 ea
  obtain ⟨S, tr⟩ := fo.tree
  have ei : (t.toIndex free.names).headStep? = some (u.toIndex free.names) := by
    rw [Term.toIndex_headStep, e]
    rfl
  obtain ⟨slot, rfl, ⟨S', tr', -⟩, -⟩ := (tr.step_of_some ei).2 _ es
  exact ⟨heap, slot, es, ⟨S', tr'⟩,
    fun x hx => fo.names x (Term.mem_freeNames_of_headStep e hx)⟩

/-- The steps of the graph and of the term go side by side. -/
lemma Follows.steps (fo : Follows free g t) (hf : 2 * free.size ≤ heapBound) (n)
    (hs : ∀ m ≤ n, ∀ g', g.steps? m = .ok (some g') → g'.heap.size < heapBound) :
    ∃ o, g.steps? n = .ok o ∧ Option.Rel (Follows free) o (t.headSteps? n) := by
  induction n generalizing g t with
  | zero => exact ⟨_, rfl, .some fo⟩
  | succ n ih =>
    rw [Term.headSteps?]
    cases e : t.headStep? with
    | none =>
      refine ⟨none, ?_, .none⟩
      rw [steps?, fo.step_of_none e]
      rfl
    | some u =>
      -- The heaps of the remaining steps are among those that `hs` speaks of.
      have hb := size_add_size_le (hs 0 (Nat.zero_le _) g rfl) hf
      obtain ⟨heap, slot, es, fo'⟩ := fo.step_of_some hb e
      have step : ∀ m, g.steps? (m + 1) = steps? m ⟨heap, g.root⟩ := fun m => by
        rw [steps?, es]
        rfl
      rw [step]
      exact ih fo' fun m hm g' eg => hs (m + 1) (Nat.succ_le_succ hm) g' (by rw [step, eg])

/-- What is read back from the graph is read as a term that is the given one up to the names of its
binders. -/
def ReadsBack (free : FreeNames) (g : Graph) (t : Term) : Prop :=
  ∃ text u, g.readback free = .ok text ∧ Term.parse text = .ok u ∧ u.AlphaEq t

/-- A graph that stands for a term is read back as that term. -/
lemma Follows.readsBack (fo : Follows free g t) (lx : ∀ name ∈ free.names, Lexable name) :
    ReadsBack free g t := by
  have lx' := IndexTerm.allLexable_readback (Term.covered_toIndex fo.names) lx
  obtain ⟨S, tr⟩ := fo.tree
  exact ⟨_, _, tr.readback_ok free, Term.parse_text lx', Term.alphaEq_readback fo.names⟩

/-- A source is reduced step by step as the term with names is. The graph finds a redex `n` times in
a row exactly if the term has `n` head steps, and then what is read back from it is the term after
these steps, up to the names of binders. -/
theorem steps_read_back {source t} (e : Term.parse source = .ok t) :
    ∃ r, Resolved.read source = .ok r ∧ ∀ n,
      (∀ m ≤ n, ∀ g, r.graph.steps? m = .ok (some g) → g.heap.size < heapBound) →
      ∃ o, r.graph.steps? n = .ok o ∧ Option.Rel (ReadsBack r.free) o (t.headSteps? n) := by
  obtain ⟨r, er, st⟩ := Resolved.read_ok e
  refine ⟨r, er, fun n hs => ?_⟩
  have fo : Follows r.free r.graph t := ⟨st.tree, fun x hx => (st.mem_iff x).2 hx⟩
  have hf := st.size_free_le.trans (Nat.le_of_lt (hs 0 (Nat.zero_le n) _ rfl))
  have lx : ∀ name ∈ r.free.names, Lexable name := fun name hm =>
    (Term.allLexable_of_parse e).of_mem_freeNames ((st.mem_iff name).1 hm)
  obtain ⟨o, eo, rel⟩ := fo.steps hf n hs
  refine ⟨o, eo, ?_⟩
  generalize t.headSteps? n = u at rel
  cases rel with
  | none => exact .none
  | some fo' => exact .some (fo'.readsBack lx)

/-- Two steps, the first of which puts a free name under a binder of the same name. -/
theorem steps_read_back_without_capture :
    ∃ r g, Resolved.read "((λx.λy.(x y) y) z)" = .ok r ∧ r.graph.steps? 2 = .ok (some g) ∧
      ReadsBack r.free g (.app (.var "y") (.var "z")) := by
  let t : Term :=
    .app (.app (.abs "x" (.abs "y" (.app (.var "x") (.var "y")))) (.var "y")) (.var "z")
  have e : Term.parse "((λx.λy.(x y) y) z)" = .ok t :=
    Term.parse_text (show t.AllLexable from by decide +kernel)
  have et : t.headSteps? 2 = some (.app (.var "y") (.var "z")) := by decide +kernel
  have sizes : ∀ m < 3, ((Graph.ofTerm t).resolve.bind fun r =>
      (r.graph.steps? m).map fun o => o.all fun g => decide (g.heap.size < heapBound)) =
        .ok true := by
    decide +kernel
  obtain ⟨r, er, h⟩ := steps_read_back e
  obtain ⟨o, eo, rel⟩ := h 2 fun m hm g eg => by
    have hlt := sizes m (Nat.lt_succ_of_le hm)
    obtain ⟨r', er', hlt⟩ := bind_eq_ok_iff.1 hlt
    cases (Resolved.read_of_resolve e er').symm.trans er
    obtain ⟨o, eo, hlt⟩ := map_eq_ok_iff.1 hlt
    rw [eg] at eo
    cases eo
    exact of_decide_eq_true hlt
  rw [et] at rel
  cases rel with
  | some rb => exact ⟨r, _, er, eo, rb⟩

end Graph

end WeakHead

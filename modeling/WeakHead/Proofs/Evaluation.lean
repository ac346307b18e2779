import WeakHead.Evaluation
import WeakHead.Proofs.Heap.Stepping

/-!
# Evaluations

An evaluation reads a source, takes single steps, and tells how they have ended. Where the source
has no free variables nothing can be in the way of the steps: no variable ever comes to the head of
the spine, since it would be a free one. So there is a redex until the root is an abstraction.

Main statement: `closed_progress`.
-/

namespace WeakHead

/-! ### Terms without free variables -/

namespace IndexTerm

variable {t : IndexTerm}

/-- No index of the term points past all its binders. -/
def Closed (t : IndexTerm) : Prop :=
  ∀ s, ¬ t.FreeSlot s

lemma IsNeutral.exists_freeSlot (ne : t.IsNeutral) : ∃ s, t.FreeSlot s := by
  induction ne with
  | idx index => exact ⟨index, freeSlot_idx_iff.2 rfl⟩
  | app arg _ ih =>
    obtain ⟨s, hs⟩ := ih
    exact ⟨s, freeSlot_app_iff.2 (.inl hs)⟩

/-- A closed term in weak head normal form is an abstraction. -/
lemma Closed.exists_lam (cl : t.Closed) (wh : t.IsWhnf) : ∃ body, t = .lam body := by
  cases wh with
  | lam body => exact ⟨body, rfl⟩
  | neutral ne =>
    obtain ⟨s, hs⟩ := ne.exists_freeSlot
    exact absurd hs (cl s)

lemma Closed.acts (cl : t.Closed) (actions) : (t.acts actions).Closed :=
  fun s hs => cl s hs.of_acts

lemma Covered.closed {free : FreeNames} (cov : t.Covered free) (em : free.names = []) :
    t.Closed := by
  intro s hs
  have lt := cov s hs
  rw [FreeNames.size, em] at lt
  exact Nat.not_lt_zero s lt

end IndexTerm

/-- The root of a tree for a term without free variables is an abstraction, or there is a redex on
its spine. -/
lemma Heap.TreeAt.progress {h : Heap} {root t S} (tr : h.TreeAt root t S) (cl : t.Closed) :
    (∃ redex, h.headRedex root = .ok (some redex)) ∨ ∃ body, h.get root = .ok (.lam body) := by
  obtain ⟨found, er⟩ := tr.headRedex_ok
  cases found with
  | some redex => exact .inl ⟨redex, er⟩
  | none =>
    have wh := IndexTerm.headStep_eq_none_iff.1 (tr.headRedex_eq_none_iff.1 er)
    obtain ⟨body, rfl⟩ := cl.exists_lam wh
    cases tr with
    | lam hg _ _ => exact .inr ⟨_, hg⟩

/-! ### How an evaluation ends -/

variable {fuel : Nat} {source : String} {budget : Option Nat}

/-- A reduction has taken single steps, and its outcome is what is found on the spine then. -/
lemma Heap.stepTimes_of_reduce {h : Heap} {root r outcome}
    (e : h.reduce fuel root budget = .ok (some (r, outcome))) :
    ∃ m found, Run.stepTimes root m (.start h) = .ok r ∧ r.heap.headRedex root = .ok found ∧
      outcome = r.outcome found := by
  cases budget with
  | some budget =>
    rw [reduce_some, map_eq_ok_iff] at e
    obtain ⟨_, e, ef⟩ := e
    cases ef
    rw [whnfWithin, Run.continueWithin_eq, bind_eq_ok_iff] at e
    obtain ⟨r', em, e⟩ := e
    obtain ⟨found, er, e⟩ := map_eq_ok_iff.1 e
    cases e
    exact ⟨budget, found, em, er, rfl⟩
  | none =>
    rw [reduce_none, map_eq_ok_iff] at e
    obtain ⟨found, ew, e⟩ := e
    obtain ⟨_, rfl, e⟩ := Option.map_eq_some_iff.1 e
    cases e
    obtain ⟨m, -, em, er⟩ := Run.continueToEnd_eq_some_iff.1 ew
    exact ⟨m, none, em, er, rfl⟩

/-- A source that was resolved is evaluated by a reduction of its graph. -/
lemma evaluate_of_read {r} (er : Resolved.read source = .ok r) :
    evaluate fuel source budget =
      (Failure.ofHeap (r.graph.heap.reduce fuel r.graph.root budget)).bind fun
        | none => .error .unsettled
        | some (run, outcome) =>
          .ok ⟨⟨run.heap, r.graph.root⟩, r.free, r.occurrences, run.contracted, outcome⟩ := by
  rw [evaluate, er]
  show (Failure.ofHeap (r.graph.heap.reduce fuel r.graph.root budget)).bind _ = _
  congr 1
  funext found
  cases found <;> rfl

lemma Failure.ofHeap_eq_ok_iff {α : Type} {x : Except Fault α} {a} :
    ofHeap x = .ok a ↔ x = .ok a := by
  cases x with
  | error fault => simp [ofHeap]
  | ok b => simp [ofHeap]

/-- An evaluation holds the graph after single steps, and its outcome is what is found on the spine
there. -/
lemma Evaluation.exists_stepTimes {r e} (er : Resolved.read source = .ok r)
    (ee : evaluate fuel source budget = .ok e) :
    ∃ m run found, Run.stepTimes r.graph.root m (.start r.graph.heap) = .ok run ∧
      run.heap.headRedex r.graph.root = .ok found ∧ e.outcome = run.outcome found ∧
      e.graph = ⟨run.heap, r.graph.root⟩ := by
  rw [evaluate_of_read er, bind_eq_ok_iff] at ee
  obtain ⟨found, ef, ee⟩ := ee
  cases found with
  | none => cases ee
  | some found =>
    obtain ⟨run, outcome⟩ := found
    cases ee
    obtain ⟨m, found, em, en, eo⟩ := Heap.stepTimes_of_reduce (Failure.ofHeap_eq_ok_iff.1 ef)
    exact ⟨m, run, found, em, en, eo, rfl⟩

/-- What an evaluation leaves of a source is a tree, whatever stopped it. -/
lemma Evaluation.exists_tree {t e} (ep : Term.parse source = .ok t)
    (ee : evaluate fuel source budget = .ok e) : ∃ u, e.graph.IsTreeOf u := by
  obtain ⟨r, er, st⟩ := Resolved.read_ok ep
  obtain ⟨m, run, found, em, -, -, eg⟩ := exists_stepTimes er ee
  rw [eg]
  exact ⟨_, Graph.IsTreeOf.stepTimes (r := .start r.graph.heap) st.tree em⟩

/-- A source without free variables is never stuck. After any number of steps there is a redex on
the spine or the root is an abstraction, and the steps go on as long as no heap is larger than heaps
can be. So an evaluation that reaches its end, with a budget or without one, leaves an abstraction
at the root. -/
theorem closed_progress {source t} (e : Term.parse source = .ok t) :
    ∃ r, Resolved.read source = .ok r ∧ (r.free.names = [] →
      (∀ n, (∀ m < n, ∀ run, Run.stepTimes r.graph.root m (.start r.graph.heap) = .ok run →
          run.heap.size < heapBound) →
        ∃ run, Run.stepTimes r.graph.root n (.start r.graph.heap) = .ok run) ∧
      (∀ n run, Run.stepTimes r.graph.root n (.start r.graph.heap) = .ok run →
        (∃ redex, run.heap.headRedex r.graph.root = .ok (some redex)) ∨
          ∃ body, run.heap.get r.graph.root = .ok (.lam body)) ∧
      ∀ fuel budget result steps, evaluate fuel source budget = .ok result →
        result.outcome = .reached steps →
        ∃ body, result.graph.heap.get result.graph.root = .ok (.lam body)) := by
  obtain ⟨r, er, st⟩ := Resolved.read_ok e
  refine ⟨r, er, fun em => ?_⟩
  -- No step brings in a free variable, so the term of every heap on the way has none.
  have cl := st.covered.closed em
  have step : ∀ n run, Run.stepTimes r.graph.root n (.start r.graph.heap) = .ok run →
      (∃ redex, run.heap.headRedex r.graph.root = .ok (some redex)) ∨
        ∃ body, run.heap.get r.graph.root = .ok (.lam body) := by
    intro n run en
    obtain ⟨S, tr⟩ := Graph.IsTreeOf.stepTimes (r := .start r.graph.heap) st.tree en
    exact tr.progress (cl.acts _)
  refine ⟨fun n hs => st.exists_stepTimes hs, step, fun fuel budget result steps ee eo => ?_⟩
  obtain ⟨m, run, found, em, en, eo', eg⟩ := Evaluation.exists_stepTimes er ee
  rw [eg]
  cases step m run em with
  | inl found =>
    obtain ⟨redex, ef⟩ := found
    cases en.symm.trans ef
    cases eo'.symm.trans eo
  | inr root => exact root

/-- Two steps, the first of which duplicates the argument. -/
theorem closed_progress_duplicated :
    ∃ r result, Resolved.read "(λx.(x x) λy.y)" = .ok r ∧ r.free.names = [] ∧
      evaluate 0 "(λx.(x x) λy.y)" (some 5) = .ok result ∧ result.outcome = .reached 2 ∧
      ∃ body, result.graph.heap.get result.graph.root = .ok (.lam body) := by
  let t : Term := .app (.abs "x" (.app (.var "x") (.var "x"))) (.abs "y" (.var "y"))
  have e : Term.parse "(λx.(x x) λy.y)" = .ok t :=
    Term.parse_text (show t.AllLexable from by decide +kernel)
  have run : ((Graph.ofTerm t).resolve.bind fun r =>
      (r.graph.heap.reduce 0 r.graph.root (some 5)).map fun found =>
        (r.free.names, found.map Prod.snd)) = .ok ([], some (.reached 2)) := by
    decide +kernel
  obtain ⟨r, er, h⟩ := closed_progress e
  obtain ⟨r', er', run⟩ := bind_eq_ok_iff.1 run
  cases (Resolved.read_of_resolve e er').symm.trans er
  obtain ⟨found, ef, run⟩ := map_eq_ok_iff.1 run
  obtain ⟨em, eo⟩ := Prod.mk.inj run
  obtain ⟨⟨last, outcome⟩, rfl, rfl⟩ := Option.map_eq_some_iff.1 eo
  obtain ⟨-, -, ends⟩ := h em
  have ee : evaluate 0 "(λx.(x x) λy.y)" (some 5) = _ := evaluate_of_read er
  rw [ef] at ee
  exact ⟨r, _, er, em, ee, rfl, ends 0 (some 5) _ 2 ee rfl⟩

end WeakHead

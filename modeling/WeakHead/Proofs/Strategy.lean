import WeakHead.Proofs.Heap.Stepping
import WeakHead.Proofs.IndexTerm.Standardization

/-!
# The strategy finds every weak head normal form

A reduction contracts one redex after another and never looks for another one than that on the
spine. Still it comes to an end for every term that contractions of any redexes, in any order, can
bring to weak head normal form.

Main statement: `whnf_of_beta`.
-/

namespace WeakHead.Graph

/-- Where the term has `n` head steps, `n` single steps make them, and each contracts a redex. -/
lemma IsTreeOf.headSteps {root n} {t u : IndexTerm} {r r' : Run}
    (tr : IsTreeOf ⟨r.heap, root⟩ t) (e : t.headSteps? n = some u)
    (er : Run.stepTimes root n r = .ok r') :
    IsTreeOf ⟨r'.heap, root⟩ u ∧ r'.steps = r.steps + n := by
  induction n generalizing r t with
  | zero =>
    cases e
    cases er
    exact ⟨tr, rfl⟩
  | succ n ih =>
    obtain ⟨t₁, e₁, e⟩ := Option.bind_eq_some_iff.1 e
    obtain ⟨r₁, er₁, er⟩ := bind_eq_ok_iff.1 er
    -- There is a head step, so the step of the heap is a contraction and is counted.
    have hn : r.heap.headRedex root ≠ .ok none := by
      obtain ⟨S, tr⟩ := tr
      rw [Ne, tr.headRedex_eq_none_iff, e₁]
      nofun
    have tr₁ : IsTreeOf ⟨r₁.heap, root⟩ (t.act .step) := by
      refine tr.act ?_
      rw [act_step_eq, er₁]
      rfl
    rw [IndexTerm.act, e₁] at tr₁
    obtain ⟨tr', es⟩ := ih tr₁ e er
    refine ⟨tr', ?_⟩
    rw [es, Run.steps_of_step hn er₁, Nat.add_assoc, Nat.add_comm 1]

/-- If contractions at any places, under binders and in arguments too, can bring the term of a
source to weak head normal form, then its head steps do, say `n` of them. As long as no heap is
larger than heaps can be, a reduction with a budget of `n` reaches the end, and one without a budget
ends there. -/
theorem whnf_of_beta {source t} (e : Term.parse source = .ok t) :
    ∃ r u, Resolved.read source = .ok r ∧ r.graph.heap.Unfolds r.graph.root u ∧
      ∀ v, Relation.ReflTransGen IndexTerm.Beta u v → v.IsWhnf →
        ∃ n w, u.headSteps? n = some w ∧ w.IsWhnf ∧
          ((∀ m < n, ∀ run, Run.stepTimes r.graph.root m (.start r.graph.heap) = .ok run →
              run.heap.size < heapBound) →
            ∃ run, r.graph.heap.whnfWithin r.graph.root n = .ok (run, .reached n) ∧
              r.graph.heap.whnf (n + 1) r.graph.root = .ok (some run)) := by
  obtain ⟨r, er, st⟩ := Resolved.read_ok e
  obtain ⟨S, tr⟩ := st.tree
  refine ⟨r, _, er, tr.unfolds, fun v be wh => ?_⟩
  obtain ⟨n, w, en, wh'⟩ := IndexTerm.exists_headSteps_of_beta be wh
  refine ⟨n, w, en, wh', fun hs => ?_⟩
  obtain ⟨run, e'⟩ := st.exists_stepTimes hs
  obtain ⟨⟨S', tr'⟩, es⟩ := IsTreeOf.headSteps (r := .start r.graph.heap) st.tree en e'
  have last := tr'.headRedex_eq_none_iff.2 (IndexTerm.headStep_eq_none_iff.2 wh')
  refine ⟨run, ?_, Run.continueToEnd_eq_some_iff.2 ⟨n, n.lt_succ_self, e', last⟩⟩
  have count : run.steps = n := es.trans (Nat.zero_add n)
  rw [Heap.whnfWithin, Run.continueWithin_eq, e', Except.bind, last, ← count]
  rfl

/-- The argument has no normal form, and the contractions go into it before they drop it. -/
theorem whnf_of_beta_dropped_argument :
    ∃ r run, Resolved.read "(λx.y (λx.(x x) λx.(x x)))" = .ok r ∧
      r.graph.heap.whnfWithin r.graph.root 1 = .ok (run, .reached 1) ∧
      r.graph.heap.whnf 2 r.graph.root = .ok (some run) := by
  let self : Term := .abs "x" (.app (.var "x") (.var "x"))
  let t : Term := .app (.abs "x" (.var "y")) (.app self self)
  have e : Term.parse "(λx.y (λx.(x x) λx.(x x)))" = .ok t :=
    Term.parse_text (show t.AllLexable from by decide +kernel)
  obtain ⟨r, u, er, un, h⟩ := whnf_of_beta e
  obtain ⟨r', er', st⟩ := resolve_ofTerm t
  cases (Resolved.read_of_resolve e er').symm.trans er
  obtain ⟨S, tr⟩ := st.tree
  have names : r.free.names = ["y"] := st.names_eq.trans (by decide +kernel)
  cases un.unique (names ▸ tr.unfolds)
  have be : Relation.ReflTransGen IndexTerm.Beta (t.toIndex ["y"]) (.idx 0) :=
    .tail (.single (.arg _ (.contract _ _))) (.contract (.idx 1) _)
  obtain ⟨n, w, en, wh, reached⟩ := h _ be (.neutral (.idx 0))
  have one : n = 1 := by
    match n, en with
    | 0, en =>
      cases en
      cases IndexTerm.headStep_eq_none_iff.2 wh
    | 1, _ => rfl
    | _ + 2, en => cases en
  subst one
  obtain ⟨run, within, whole⟩ := reached fun m lt run em => by
    cases Nat.lt_one_iff.1 lt
    cases em
    exact st.size_eq ▸ (by decide +kernel)
  exact ⟨r, run, er, within, whole⟩

end WeakHead.Graph

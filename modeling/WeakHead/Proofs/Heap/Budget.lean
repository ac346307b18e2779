import Mathlib.Data.ENat.Lattice
import WeakHead.Proofs.Heap.Stepping

/-!
# Budgets

A heap needs a number of single steps to come to weak head normal form, or never comes to one. A
budget below this number is used up, any other leads to the end, and so does a reduction without a
budget. Up to there every step contracts a redex, and from there on none does.

Main statement: `keepsBudgets_of_parse`.
-/

namespace WeakHead

namespace Heap

/-- After this many single steps there is no redex. -/
def Settles (h : Heap) (root : Slot) (n : Nat) : Prop :=
  ∃ r, Run.stepTimes root n (.start h) = .ok r ∧ r.heap.headRedex root = .ok none

/-- The number of single steps until there is no redex, `⊤` if that never comes. -/
noncomputable def stepCount (h : Heap) (root : Slot) : ℕ∞ :=
  ⨅ (n : ℕ) (_ : h.Settles root n), (n : ℕ∞)

variable {h : Heap} {root : Slot} {n : Nat}

lemma stepCount_le_iff : h.stepCount root ≤ n ↔ h.Settles root n := by
  constructor
  · intro le
    by_contra hn
    -- Whatever settles the heap comes later than `n`.
    have lt : ((n + 1 : ℕ) : ℕ∞) ≤ h.stepCount root := by
      refine le_iInf₂ fun m hm => Nat.cast_le.2 (Nat.lt_of_not_le fun le => hn ?_)
      obtain ⟨r, e, er⟩ := hm
      exact ⟨r, Run.stepTimes_of_le e er le, er⟩
    exact Nat.not_succ_le_self n (Nat.cast_le.1 (lt.trans le))
  · exact fun hs => iInf₂_le n hs

lemma steps_of_le_stepCount (le : n ≤ h.stepCount root) {r}
    (e : Run.stepTimes root n (.start h) = .ok r) : r.steps = n := by
  rw [Run.steps_of_stepTimes e, show (Run.start h).steps = 0 from rfl, Nat.zero_add]
  intro m lt r₁ e₁ er₁
  have le' := stepCount_le_iff.2 ⟨r₁, e₁, er₁⟩
  exact Nat.not_le_of_lt lt (Nat.cast_le.1 (le.trans le'))

/-- The run that the steps that are counted lead to, if there is an end to them. -/
lemma exists_settled (ne : h.stepCount root ≠ ⊤) :
    ∃ r, Run.stepTimes root (h.stepCount root).toNat (.start h) = .ok r ∧
      r.heap.headRedex root = .ok none ∧ r.steps = h.stepCount root := by
  obtain ⟨n, e⟩ := ENat.ne_top_iff_exists.1 ne
  obtain ⟨r, er, hn⟩ := stepCount_le_iff.1 e.symm.le
  refine ⟨r, ?_, hn, ?_⟩
  · rw [← e, ENat.toNat_natCast, er]
  · rw [steps_of_le_stepCount e.le er, e]

lemma whnfWithin_of_stepCount_le (le : h.stepCount root ≤ n) {r}
    (e : Run.stepTimes root (h.stepCount root).toNat (.start h) = .ok r)
    (er : r.heap.headRedex root = .ok none) :
    h.whnfWithin root n = .ok (r, .reached r.steps) := by
  have le' : (h.stepCount root).toNat ≤ n := ENat.toNat_le_of_le_natCast le
  rw [whnfWithin, Run.continueWithin_eq, Run.stepTimes_of_le e er le']
  show (r.heap.headRedex root).map _ = _
  rw [er]
  rfl

/-- A smaller budget is spent on single steps. -/
lemma whnfWithin_of_lt_stepCount (lt : n < h.stepCount root)
    (ex : ∀ r, Run.stepTimes root n (.start h) = .ok r →
      ∃ found, r.heap.headRedex root = .ok found) :
    h.whnfWithin root n =
      (Run.stepTimes root n (.start h)).map fun r => (r, .exhausted n) := by
  rw [whnfWithin, Run.continueWithin_eq]
  cases e : Run.stepTimes root n (.start h) with
  | error fault => rfl
  | ok r =>
    obtain ⟨found, er⟩ := ex r e
    show (r.heap.headRedex root).map _ = .ok (r, Outcome.exhausted n)
    rw [er]
    cases found with
    | none => exact absurd (stepCount_le_iff.2 ⟨r, e, er⟩) (not_le_of_gt lt)
    | some redex =>
      rw [← steps_of_le_stepCount lt.le e]
      rfl

lemma whnf_eq_some_iff {fuel r} :
    h.whnf fuel root = .ok (some r) ↔ h.stepCount root < fuel ∧
      Run.stepTimes root (h.stepCount root).toNat (.start h) = .ok r := by
  rw [whnf, Run.continueToEnd_eq_some_iff]
  constructor
  · rintro ⟨n, lt, e, er⟩
    have le := stepCount_le_iff.2 ⟨r, e, er⟩
    obtain ⟨r', e', er', -⟩ := exists_settled (ne_top_of_le_ne_top (ENat.natCast_ne_top n) le)
    rw [Run.stepTimes_of_le e' er' (ENat.toNat_le_of_le_natCast le)] at e
    cases e
    exact ⟨le.trans_lt (Nat.cast_lt.2 lt), e'⟩
  · rintro ⟨lt, e⟩
    obtain ⟨r', e', er', -⟩ := exists_settled lt.ne_top
    rw [e] at e'
    cases e'
    exact ⟨_, Nat.cast_lt.1 ((ENat.natCast_toNat_le_self _).trans_lt lt), e, er'⟩

/-- With a budget, as many single steps are taken as are needed and as it allows. -/
lemma whnfWithin_eq (ex : ∀ n r, Run.stepTimes root n (.start h) = .ok r →
      ∃ found, r.heap.headRedex root = .ok found) (budget : ℕ) :
    h.whnfWithin root budget =
      (Run.stepTimes root (min (budget : ℕ∞) (h.stepCount root)).toNat (.start h)).map fun r =>
        (r, if h.stepCount root ≤ budget then .reached (h.stepCount root).toNat
          else .exhausted budget) := by
  by_cases le : h.stepCount root ≤ budget
  · obtain ⟨r, e, er, es⟩ := exists_settled (ne_top_of_le_ne_top (ENat.natCast_ne_top budget) le)
    rw [if_pos le, min_eq_right le, e, whnfWithin_of_stepCount_le le e er, ← es]
    rfl
  · rw [if_neg le, min_eq_left (le_of_not_ge le),
      whnfWithin_of_lt_stepCount (lt_of_not_ge le) (ex budget)]
    rfl

lemma exists_whnf_of_lt {fuel : ℕ} (lt : h.stepCount root < fuel) :
    ∃ r, h.whnf fuel root = .ok (some r) := by
  obtain ⟨r, e, -, -⟩ := exists_settled lt.ne_top
  exact ⟨r, whnf_eq_some_iff.2 ⟨lt, e⟩⟩

/-- There is a result with some fuel exactly if the steps that are needed are finitely many. -/
lemma exists_whnf_iff :
    (∃ fuel r, h.whnf fuel root = .ok (some r)) ↔ h.stepCount root ≠ ⊤ := by
  constructor
  · rintro ⟨fuel, r, e⟩
    exact (whnf_eq_some_iff.1 e).1.ne_top
  · intro ne
    obtain ⟨n, en⟩ := ENat.ne_top_iff_exists.1 ne
    exact ⟨n + 1, exists_whnf_of_lt (en ▸ Nat.cast_lt.2 n.lt_succ_self)⟩

/-- The result takes the steps that are needed, and is that of any budget for them. -/
lemma whnf_eq {fuel r} (e : h.whnf fuel root = .ok (some r)) :
    r.steps = h.stepCount root ∧ ∀ budget : ℕ, h.stepCount root ≤ budget →
      h.whnfWithin root budget = .ok (r, .reached r.steps) := by
  obtain ⟨lt, er⟩ := whnf_eq_some_iff.1 e
  obtain ⟨r', er', hn, es⟩ := exists_settled lt.ne_top
  rw [er] at er'
  cases er'
  exact ⟨es, fun budget le => whnfWithin_of_stepCount_le le er hn⟩

end Heap

namespace Graph

/-- What a budget does to a graph that needs `s` steps to come to weak head normal form, with `⊤` if
it never does. -/
structure KeepsBudgets (g : Graph) (s : ℕ∞) : Prop where
  /-- Single steps succeed as long as no heap is larger than heaps can be. -/
  exists_stepTimes : ∀ n : ℕ,
    (∀ m < n, ∀ r, Run.stepTimes g.root m (.start g.heap) = .ok r → r.heap.size < heapBound) →
    ∃ r, Run.stepTimes g.root n (.start g.heap) = .ok r
  /-- Each of the first `s` steps contracts a redex. -/
  steps_eq : ∀ n : ℕ, n ≤ s → ∀ r, Run.stepTimes g.root n (.start g.heap) = .ok r → r.steps = n
  /-- With a budget, as many single steps are taken as are needed and as it allows. -/
  whnfWithin_eq : ∀ budget : ℕ,
    g.heap.whnfWithin g.root budget =
      (Run.stepTimes g.root (min (budget : ℕ∞) s).toNat (.start g.heap)).map fun r =>
        (r, if s ≤ budget then .reached s.toNat else .exhausted budget)
  /-- A budget can be split, and the second part goes on where the first has ended. -/
  whnfWithin_add : ∀ m n : ℕ,
    ((g.heap.whnfWithin g.root m).bind fun (r, o) =>
      (r.heap.whnfWithin g.root n).map fun (r', o') => (r.followedBy r', o'.after o.steps)) =
    g.heap.whnfWithin g.root (m + n)
  /-- Without a budget the reduction comes to an end exactly if there is one. -/
  exists_whnf_iff : (∃ fuel r, g.heap.whnf fuel g.root = .ok (some r)) ↔ s ≠ ⊤
  /-- It does so as soon as it may look at all the steps there are. -/
  exists_whnf_of_lt : ∀ fuel : ℕ, s < fuel → ∃ r, g.heap.whnf fuel g.root = .ok (some r)
  /-- It ends where every budget ends that is large enough. -/
  whnf_eq : ∀ fuel r, g.heap.whnf fuel g.root = .ok (some r) →
    r.steps = s ∧
      ∀ budget : ℕ, s ≤ budget → g.heap.whnfWithin g.root budget = .ok (r, .reached r.steps)
  /-- From a weak head normal form on nothing is done and nothing changes. -/
  idle : ∀ n r, Run.stepTimes g.root n (.start g.heap) = .ok r →
    r.heap.headRedex g.root = .ok none →
    r.heap.step g.root = .ok (r.heap, none) ∧
      (∀ fuel, r.heap.whnf (fuel + 1) g.root = .ok (some (.start r.heap))) ∧
      ∀ budget, r.heap.whnfWithin g.root budget = .ok (.start r.heap, .reached 0)

/-- However the steps of a source are divided up by budgets, they are the same single steps, up to
the weak head normal form if there is one. -/
theorem keepsBudgets_of_parse {source t} (e : Term.parse source = .ok t) :
    ∃ r, Resolved.read source = .ok r ∧
      r.graph.KeepsBudgets (r.graph.heap.stepCount r.graph.root) := by
  obtain ⟨r, er, st⟩ := Resolved.read_ok e
  refine ⟨r, er, ?_⟩
  -- The spine can be looked through after any number of steps, since the heap is still a tree.
  have found : ∀ n run, Run.stepTimes r.graph.root n (.start r.graph.heap) = .ok run →
      ∃ found, run.heap.headRedex r.graph.root = .ok found := by
    intro n run en
    obtain ⟨S, tr⟩ := IsTreeOf.stepTimes (r := .start r.graph.heap) st.tree en
    exact tr.headRedex_ok
  exact {
    exists_stepTimes := fun n hs => st.exists_stepTimes hs
    steps_eq := fun n le run => Heap.steps_of_le_stepCount le
    whnfWithin_eq := Heap.whnfWithin_eq found
    whnfWithin_add := Run.continueWithin_split
    exists_whnf_iff := Heap.exists_whnf_iff
    exists_whnf_of_lt := fun fuel => Heap.exists_whnf_of_lt
    whnf_eq := fun fuel run => Heap.whnf_eq
    idle := fun n run _ hn => ⟨Heap.step_eq_none_iff.2 ⟨hn, rfl⟩, Run.continueToEnd_of_none hn,
      Run.continueWithin_of_none hn⟩ }

/-- Three identities in one another: a budget of two is used up, and three steps are enough. -/
theorem keepsBudgets_of_parse_three :
    ∃ r, Resolved.read "(λx.x (λy.y (λz.z N)))" = .ok r ∧
      r.graph.heap.stepCount r.graph.root = 3 ∧
      (∃ run, r.graph.heap.whnfWithin r.graph.root 2 = .ok (run, .exhausted 2)) ∧
      ∀ budget, 3 ≤ budget →
        ∃ run, r.graph.heap.whnfWithin r.graph.root budget = .ok (run, .reached 3) := by
  let t : Term := .app (.abs "x" (.var "x")) (.app (.abs "y" (.var "y"))
    (.app (.abs "z" (.var "z")) (.var "N")))
  have e : Term.parse "(λx.x (λy.y (λz.z N)))" = .ok t :=
    Term.parse_text (show t.AllLexable from by decide +kernel)
  have last : ((Graph.ofTerm t).resolve.bind fun r =>
      (r.graph.heap.whnf 4 r.graph.root).map fun run => run.map Run.steps) = .ok (some 3) := by
    decide +kernel
  have two : ((Graph.ofTerm t).resolve.bind fun r =>
      (Run.stepTimes r.graph.root 2 (.start r.graph.heap)).map fun run => run.steps) = .ok 2 := by
    decide +kernel
  obtain ⟨r, er, keeps⟩ := keepsBudgets_of_parse e
  obtain ⟨r', er', last⟩ := bind_eq_ok_iff.1 last
  cases (Resolved.read_of_resolve e er').symm.trans er
  rw [er'] at two
  obtain ⟨found, ew, last⟩ := map_eq_ok_iff.1 last
  obtain ⟨run, rfl, es⟩ := Option.map_eq_some_iff.1 last
  obtain ⟨ec, enough⟩ := keeps.whnf_eq 4 run ew
  rw [es] at ec
  refine ⟨r, er, ec.symm, ?_, fun budget le => ⟨run, ?_⟩⟩
  · obtain ⟨run₂, e₂, -⟩ := map_eq_ok_iff.1 two
    refine ⟨run₂, ?_⟩
    have short : ¬ ((3 : ℕ) : ℕ∞) ≤ (2 : ℕ) := mt Nat.cast_le.1 (by decide)
    rw [keeps.whnfWithin_eq 2, ← ec, if_neg short, min_eq_left (le_of_not_ge short)]
    exact map_eq_ok_iff.2 ⟨run₂, e₂, rfl⟩
  · rw [enough budget (ec ▸ Nat.cast_le.2 le), es]

end Graph

end WeakHead

import Mathlib.Algebra.BigOperators.Group.Finset.Basic
import WeakHead.Proofs.Heap.Frame

/-!
# What a step costs

A contraction appends a copy of the argument for each occurrence of the variable, and nothing else.
Of the nodes that the root reached before, it leaves behind the abstraction, the argument and one of
the two slots that hold the root of the body; and where a copy was put in, the slot in which its
root was built. Hence what a compaction would free grows by these in each step, from the nodes of
the named tree on.

Main statement: `step_accounts`.
-/

namespace WeakHead

namespace IndexTerm

/-- How often the variable of the binder `level` binders further out occurs. -/
def occurrences (level : Nat) : IndexTerm → Nat
  | idx index => if index = level then 1 else 0
  | lam body => body.occurrences (level + 1)
  | app fn arg => fn.occurrences level + arg.occurrences level

@[simp] lemma size_raise (amount cutoff : Nat) (t : IndexTerm) :
    (t.raise amount cutoff).size = t.size := by
  induction t generalizing cutoff with
  | idx index => rfl
  | lam body ih => rw [raise, size, size, ih]
  | app fn arg ihf iha => rw [raise, size, size, ihf, iha]

/-- Each occurrence of the variable gives way to the argument. -/
lemma size_instantiate (level : Nat) (arg body : IndexTerm) :
    (instantiate level arg body).size + body.occurrences level =
      body.size + body.occurrences level * arg.size := by
  induction body generalizing level with
  | idx index =>
    simp only [instantiate, occurrences]
    split_ifs with hlt he
    · omega
    · rw [Nat.zero_mul]
    · rw [size_raise, size, Nat.one_mul, Nat.add_comm]
    · rw [Nat.zero_mul, size, size]
  | lam body ih =>
    have e := ih (level + 1)
    simp only [instantiate, occurrences, size]
    omega
  | app fn other ihf iha =>
    have ef := ihf level
    have ea := iha level
    simp only [instantiate, occurrences, size, Nat.add_mul]
    omega

end IndexTerm

namespace Heap

variable {h h' : Heap} {root slot replacement : Slot} {t u body arg : IndexTerm}
  {S E B A : Finset Slot} {redex : Redex} {n : Nat}

/-! ### The heap -/

/-- A substitution appends one copy for each occurrence. -/
lemma TreeAt.size_of_substituteAmongOld {old depth} {level crossed : Nat} (tr : h.TreeAt slot t S)
    (trE : h.TreeAt replacement u E) (dis : Disjoint S E) (hold : ∀ x ∈ S, x < old)
    (hd : t.height ≤ depth)
    (e : substituteAmongOld replacement old depth h slot level crossed = .ok h') :
    h'.size = h.size + t.occurrences level * u.size := by
  induction t generalizing h h' slot S depth level crossed with
  | idx index =>
    obtain ⟨depth, rfl⟩ := IndexTerm.depth_eq_succ hd
    rw [substituteAmongOld_of_lt (hold _ tr.root_mem)] at e
    cases tr with
    | idx hg =>
      rw [substituteAt_idx hg] at e
      rw [IndexTerm.occurrences]
      split_ifs at e ⊢ with hl
      · have fit := trE.unfolds.shiftable_of_replaceByCopy trE.height_le e
        obtain ⟨hc, copied, node, bt, -, e'⟩ :=
          trE.unfolds.replaceByCopy_built trE.height_le (lt_size_of_get_eq_ok hg) fit
        cases e.symm.trans e'
        rw [size_put, bt.size_eq, IndexTerm.size_raise, Nat.one_mul]
      · cases e
        rw [Nat.zero_mul, Nat.add_zero]
  | lam body ih =>
    obtain ⟨depth, rfl⟩ := IndexTerm.depth_eq_succ hd
    rw [substituteAmongOld_of_lt (hold _ tr.root_mem)] at e
    cases tr with
    | lam hg trb hn =>
      rw [Finset.disjoint_insert_left] at dis
      rw [substituteAt_lam hg, bind_eq_ok_iff] at e
      obtain ⟨inner, ec, e⟩ := e
      obtain ⟨-, rfl⟩ := crossBinder_eq_ok_iff.1 ec
      exact ih trb trE dis.2 (fun x hx => hold x (Finset.mem_insert_of_mem hx))
        (Nat.le_of_succ_le_succ hd) e
  | app fn arg ihf iha =>
    obtain ⟨depth, rfl⟩ := IndexTerm.depth_eq_succ hd
    have hd := Nat.le_of_succ_le_succ hd
    rw [substituteAmongOld_of_lt (hold _ tr.root_mem)] at e
    cases tr with
    | @app slot fnSlot argSlot _ _ S R hg trf tra hf ha disSR =>
      rw [Finset.disjoint_insert_left, Finset.disjoint_union_left] at dis
      rw [substituteAt_app hg, bind_eq_ok_iff] at e
      obtain ⟨h₁, e₁, e₂⟩ := e
      have holdS : ∀ x ∈ S, x < old :=
        fun x hx => hold x (Finset.mem_insert_of_mem (Finset.mem_union_left R hx))
      have holdR : ∀ x ∈ R, x < old :=
        fun x hx => hold x (Finset.mem_insert_of_mem (Finset.mem_union_right S hx))
      have es₁ := ihf trf trE dis.2.1 holdS (le_of_max_le_left hd) e₁
      -- The walk through the function has kept the argument and what is copied.
      have ⟨_, kp⟩ := trf.substituted_of_walk trE dis.2.1 holdS (le_of_max_le_left hd) e₁
      have es₂ := iha (tra.frame kp disSR.symm) (trE.frame kp dis.2.1.symm) dis.2.2 holdR
        (le_of_max_le_right hd) e₂
      rw [es₂, es₁, IndexTerm.occurrences, Nat.add_mul, Nat.add_assoc]

/-- Only the copies are appended in a contraction. -/
lemma TreeAt.size_of_contract (trB : h.TreeAt redex.body body B) (trA : h.TreeAt redex.arg arg A)
    (dis : Disjoint B A) (e : h.contract redex = .ok h') :
    h'.size = h.size + body.occurrences 0 * arg.size := by
  obtain ⟨h₁, h₂, h₃, node, e₁, e₂, e₃, -, rfl⟩ := exists_passes e
  obtain ⟨trB₁, trA₁, -, es₁⟩ := trB.after_raise trA dis e₁
  have es₂ := trB₁.size_of_substituteAmongOld trA₁ dis (fun x hx => trB₁.lt_size hx)
    (trB₁.height_le.trans (Nat.le_add_right _ _)) e₂
  rw [size_put, (reindexed_of_shift e₃).size_eq, es₂, es₁, IndexTerm.size_raise]

/-! ### The tree -/

/-- The redex on the spine of a tree, and what its contraction does to the size of the term. -/
lemma OnSpine.exists_trees (os : h.OnSpine redex slot n) (tr : h.TreeAt slot t S) :
    ∃ body arg B A t', h.TreeAt redex.body body B ∧ h.TreeAt redex.arg arg A ∧ Disjoint B A ∧
      t.headStep? = some t' ∧
      t'.size + body.occurrences 0 + arg.size + 2 = t.size + body.occurrences 0 * arg.size := by
  induction os generalizing t S with
  | here hg hf =>
    obtain ⟨_, arg, F, A, rfl, -, trf, trA, dis⟩ := tr.app_inv hg
    obtain ⟨body, B, rfl, rfl, trB⟩ := trf.lam_inv hf
    rw [Finset.disjoint_insert_left] at dis
    refine ⟨body, arg, B, A, _, trB, trA, dis.2, rfl, ?_⟩
    have e := IndexTerm.size_instantiate 0 arg body
    simp only [IndexTerm.size]
    omega
  | up hg hf hn os ih =>
    obtain ⟨fn, other, F, R, rfl, -, trf, -, -⟩ := tr.app_inv hg
    obtain ⟨body, arg, B, A, fn', trB, trA, dis, et, es⟩ := ih trf
    refine ⟨body, arg, B, A, .app fn' other, trB, trA, dis, ?_, ?_⟩
    · rw [IndexTerm.headStep?, et]
      · rfl
      · rintro _ rfl
        cases et
    · simp only [IndexTerm.size]
      omega

/-! ### Steps -/

/-- A step on a tree that contracts a redex, told by what body and argument stand for. -/
lemma TreeAt.step_contracts (tr : h.TreeAt root t S) (e : h.step root = .ok (h', some slot)) :
    ∃ redex body arg t' S', h.headRedex root = .ok (some redex) ∧ redex.slot = slot ∧
      h.Unfolds redex.body body ∧ h.Unfolds redex.arg arg ∧ h'.TreeAt root t' S' ∧
      h'.size = h.size + body.occurrences 0 * arg.size ∧
      t'.size + body.occurrences 0 + arg.size + 2 = t.size + body.occurrences 0 * arg.size := by
  obtain ⟨redex, n, es, er, os, ec⟩ := onSpine_of_step e
  obtain ⟨body, arg, B, A, t', trB, trA, dis, et, size⟩ := os.exists_trees tr
  obtain ⟨_, -, ⟨S', tr', -⟩, -⟩ := (tr.step_of_some et).2 _ e
  exact ⟨redex, body, arg, t', S', er, es, trB.unfolds, trA.unfolds, tr',
    trB.size_of_contract trA dis ec, size⟩

/-- The number of nodes that a step from `root` leaves behind. -/
inductive StepLeaves (h : Heap) (root : Slot) : Nat → Prop where
  | idle :
    h.headRedex root = .ok none →
    StepLeaves h root 0
  | contract {redex : Redex} {body arg : IndexTerm} :
    h.headRedex root = .ok (some redex) →
    h.Unfolds redex.body body →
    h.Unfolds redex.arg arg →
    StepLeaves h root (body.occurrences 0 + arg.size + 2)

/-- A step adds what it leaves behind to the nodes outside the tree. -/
lemma TreeAt.stepLeaves {found} (tr : h.TreeAt root t S) (e : h.step root = .ok (h', found)) :
    ∃ k t' S', h.StepLeaves root k ∧ h'.TreeAt root t' S' ∧
      h'.size + t.size = h.size + t'.size + k := by
  cases found with
  | none =>
    obtain ⟨er, rfl⟩ := step_eq_none_iff.1 e
    exact ⟨0, t, S, .idle er, tr, rfl⟩
  | some slot =>
    obtain ⟨redex, body, arg, t', S', er, -, unB, unA, tr', es, et⟩ := tr.step_contracts e
    exact ⟨_, t', S', .contract er unB unA, tr', by omega⟩

/-- Steps one after the other add up what each of them leaves behind. -/
lemma TreeAt.leaves_of_stepTimes {r r' : Run} (tr : r.heap.TreeAt root t S)
    (e : Run.stepTimes root n r = .ok r') :
    ∃ left : Nat → Nat,
      (∀ m < n, ∃ before, Run.stepTimes root m r = .ok before ∧
        before.heap.StepLeaves root (left m)) ∧
      ∃ t' S', r'.heap.TreeAt root t' S' ∧
        r'.heap.size + t.size = r.heap.size + t'.size + ∑ m ∈ Finset.range n, left m := by
  induction n generalizing r t S with
  | zero =>
    cases e
    exact ⟨fun _ => 0, nofun, t, S, tr, rfl⟩
  | succ n ih =>
    obtain ⟨r₁, e₁, e⟩ := bind_eq_ok_iff.1 e
    obtain ⟨found, es⟩ := exists_found_of_step e₁
    obtain ⟨k, t₁, S₁, sl, tr₁, size₁⟩ := tr.stepLeaves es
    obtain ⟨left, leaves, t', S', tr', size⟩ := ih tr₁ e
    refine ⟨fun m => m.casesOn k left, fun m hm => ?_, t', S', tr', ?_⟩
    · cases m with
      | zero => exact ⟨r, rfl, sl⟩
      | succ m =>
        obtain ⟨before, eb, sl'⟩ := leaves m (Nat.lt_of_succ_lt_succ hm)
        exact ⟨before, bind_eq_ok_iff.2 ⟨r₁, e₁, eb⟩, sl'⟩
    · rw [Finset.sum_range_succ']
      show _ = _ + (∑ m ∈ Finset.range n, left m + k)
      omega

/-! ### From a source -/

lemma UnfoldsNamed.sizeWithin_ok {t : Term} {depth} (un : h.UnfoldsNamed slot t)
    (hd : t.height ≤ depth) : h.sizeWithin depth slot = .ok t.size := by
  induction t generalizing slot depth with
  | var name =>
    obtain ⟨depth, rfl⟩ := Term.depth_eq_succ hd
    cases un with
    | var hg => exact sizeWithin_leaf hg rfl depth
  | abs binder body ih =>
    obtain ⟨depth, rfl⟩ := Term.depth_eq_succ hd
    cases un with
    | abs hg unb => exact sizeWithin_one hg rfl (ih unb (Nat.le_of_succ_le_succ hd))
  | app fn arg ihf iha =>
    obtain ⟨depth, rfl⟩ := Term.depth_eq_succ hd
    have hd := Nat.le_of_succ_le_succ hd
    cases un with
    | app hg unf una =>
      exact sizeWithin_two hg (ihf unf (le_of_max_le_left hd)) (iha una (le_of_max_le_right hd))

end Heap

/-- From a source, the named tree is what is left behind before the first step. -/
lemma Resolved.exists_tree_of_read {source named r} (eg : Graph.read source = .ok named)
    (er : Resolved.read source = .ok r) :
    ∃ N t S, named.size = .ok N ∧ r.graph.heap.TreeAt r.graph.root t S ∧
      r.graph.heap.size = N + t.size := by
  obtain ⟨t, ep, rfl⟩ := Graph.exists_term_of_read eg
  obtain ⟨r', er', st⟩ := Resolved.read_ok ep
  cases er.symm.trans er'
  obtain ⟨S, tr⟩ := st.tree
  refine ⟨t.size, _, S, ?_, tr, ?_⟩
  · exact (Graph.unfoldsNamed_ofTerm t).sizeWithin_ok (Graph.height_le_ofTerm t)
  · rw [st.size_eq, Term.size_toIndex, Nat.two_mul]

/-- What a step on a tree costs. The heap grows by one copy of the argument for each occurrence of
the variable; the tree loses the application, the abstraction and the argument, and grows by a copy
less one node in each of these places. What a compaction would free grows by the difference. So
after any number of steps from a source a compaction frees the nodes of the named tree and what each
step has left behind. -/
theorem step_accounts :
    (∀ (h h' : Heap) root slot t, h.Unfolds root t → h.SpansTree root →
      h.step root = .ok (h', some slot) →
      ∃ redex body arg, h.headRedex root = .ok (some redex) ∧ redex.slot = slot ∧
        h.Unfolds redex.body body ∧ h.Unfolds redex.arg arg ∧
        h'.size = h.size + body.occurrences 0 * arg.size ∧
        (∃ n n' : Nat, (Graph.mk h root).size = .ok n ∧ (Graph.mk h' root).size = .ok n' ∧
          (n' - n : Int) = body.occurrences 0 * (arg.size - 1) - arg.size - 2) ∧
        ∃ c c', (Graph.mk h root).compact = .ok c ∧ (Graph.mk h' root).compact = .ok c' ∧
          c'.freed = c.freed + (body.occurrences 0 + arg.size + 2)) ∧
    ∀ source named r, Graph.read source = .ok named → Resolved.read source = .ok r →
      ∀ n run, Run.stepTimes r.graph.root n (.start r.graph.heap) = .ok run →
      ∃ left : Nat → Nat,
        (∀ m < n, ∃ before, Run.stepTimes r.graph.root m (.start r.graph.heap) = .ok before ∧
          before.heap.StepLeaves r.graph.root (left m)) ∧
        ∃ N c, named.size = .ok N ∧ (Graph.mk run.heap r.graph.root).compact = .ok c ∧
          c.freed = N + ∑ m ∈ Finset.range n, left m := by
  constructor
  · intro h h' root slot t un sp e
    obtain ⟨S, tr⟩ := un.treeAt sp
    obtain ⟨redex, body, arg, t', S', er, es, unB, unA, tr', grown, size⟩ := tr.step_contracts e
    obtain ⟨c, ec, -, -, -, freed⟩ := Heap.TreeAt.compact_ok (g := ⟨h, root⟩) tr
    obtain ⟨c', ec', -, -, -, freed'⟩ := Heap.TreeAt.compact_ok (g := ⟨h', root⟩) tr'
    refine ⟨redex, body, arg, er, es, unB, unA, grown,
      ⟨t.size, t'.size, tr.sizeFrom_ok, tr'.sizeFrom_ok, ?_⟩, c, c', ec, ec', ?_⟩
    · have size : (t'.size + body.occurrences 0 + arg.size + 2 : Int) =
          t.size + body.occurrences 0 * arg.size := by exact_mod_cast size
      rw [Int.mul_sub, Int.mul_one]
      omega
    · have le := tr.size_le
      have le' := tr'.size_le
      simp only at freed freed'
      omega
  · intro source named r eg er n run e
    obtain ⟨N, t, S, eN, tr, es⟩ := Resolved.exists_tree_of_read eg er
    obtain ⟨left, leaves, t', S', tr', size⟩ :=
      Heap.TreeAt.leaves_of_stepTimes (r := .start r.graph.heap) tr e
    obtain ⟨c, ec, -, -, -, freed⟩ := Heap.TreeAt.compact_ok (g := ⟨run.heap, r.graph.root⟩) tr'
    refine ⟨left, leaves, N, c, eN, ec, ?_⟩
    have le := tr'.size_le
    simp only [Run.start] at size freed
    omega

/-- The term `((λ (0 0)) (λ 0))`. -/
def appliedToItself : Heap :=
  ⟨#[.idx 0, .idx 0, .app 0 1, .lam 2, .idx 0, .lam 4, .app 3 5]⟩

/-- Both occurrences get a copy of the two nodes of the argument, so the heap grows by four nodes,
the tree shrinks by two, and six are left behind. And from a source with nine nodes, two steps leave
behind what they add to these. -/
theorem step_accounts_duplicated :
    (∃ h' c', appliedToItself.step 6 = .ok (h', some 6) ∧ h'.size = 11 ∧
      (Graph.mk h' 6).size = .ok 5 ∧ (Graph.mk h' 6).compact = .ok c' ∧ c'.freed = 6) ∧
    ∃ named r run c, ∃ left : Nat → Nat, Graph.read "(λx.(x x) λy.(y z))" = .ok named ∧
      Resolved.read "(λx.(x x) λy.(y z))" = .ok r ∧ named.size = .ok 9 ∧
      Run.stepTimes r.graph.root 2 (.start r.graph.heap) = .ok run ∧
      (∀ m < 2, ∃ before, Run.stepTimes r.graph.root m (.start r.graph.heap) = .ok before ∧
        before.heap.StepLeaves r.graph.root (left m)) ∧
      (Graph.mk run.heap r.graph.root).compact = .ok c ∧ c.freed = 9 + (left 0 + left 1) := by
  obtain ⟨accounts, source⟩ := step_accounts
  constructor
  · have body : appliedToItself.Unfolds 2 (.app (.idx 0) (.idx 0)) :=
      .app rfl (.idx rfl) (.idx rfl)
    have arg : appliedToItself.Unfolds 5 (.lam (.idx 0)) := .lam rfl (.idx rfl)
    have tree : appliedToItself.PostAt 0 (.app (.lam (.app (.idx 0) (.idx 0))) (.lam (.idx 0))) 6 :=
      .app (.lam (.app (.idx rfl) (.idx rfl) rfl) rfl) (.lam (.idx rfl) rfl) rfl
    have run : (appliedToItself.step 6).map Prod.snd = .ok (some 6) := by decide +kernel
    obtain ⟨⟨h', found⟩, e, rfl⟩ := map_eq_ok_iff.1 run
    obtain ⟨redex, body', arg', er, -, unB, unA, grown, ⟨n, n', en, en', size⟩, c, c', ec, ec',
      freed⟩ := accounts _ _ _ _ _ tree.tree.unfolds tree.tree.spansTree e
    have er' : appliedToItself.headRedex 6 = .ok (some ⟨6, 2, 5⟩) := by decide +kernel
    cases er'.symm.trans er
    cases unB.unique body
    cases unA.unique arg
    have en₀ : (Graph.mk appliedToItself 6).size = .ok 7 := by decide +kernel
    cases en₀.symm.trans en
    have ec₀ : (Graph.mk appliedToItself 6).compact.map Compacted.freed = .ok 0 := by
      decide +kernel
    rw [ec] at ec₀
    refine ⟨h', c', e, grown, ?_, ec', ?_⟩
    · have occ : (IndexTerm.app (.idx 0) (.idx 0)).occurrences 0 = 2 := rfl
      have two : (IndexTerm.lam (.idx 0)).size = 2 := rfl
      rw [occ, two] at size
      rw [en', show n' = 5 by omega]
    · rw [freed, Except.ok.inj ec₀]
      rfl
  · let t : Term :=
      .app (.abs "x" (.app (.var "x") (.var "x"))) (.abs "y" (.app (.var "y") (.var "z")))
    have e : Term.parse "(λx.(x x) λy.(y z))" = .ok t :=
      Term.parse_text (show t.AllLexable from by decide +kernel)
    obtain ⟨r, run, eg, er, erun, -⟩ :=
      Heap.exists_run_of_parse (n := 2) (k := 2) e (by decide +kernel)
    obtain ⟨left, leaves, N, c, eN, ec, freed⟩ := source _ _ r eg er 2 run erun
    have size : (Graph.ofTerm t).size = .ok 9 := by decide +kernel
    cases size.symm.trans eN
    rw [Finset.sum_range_succ, Finset.sum_range_one] at freed
    exact ⟨_, r, run, c, left, eg, er, size, erun, leaves, ec, freed⟩

end WeakHead

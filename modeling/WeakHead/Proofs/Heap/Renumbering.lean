import WeakHead.Proofs.Heap.Accounting
import WeakHead.Proofs.Heap.Alike.Contraction
import WeakHead.Proofs.Heap.Reindexing
import WeakHead.Proofs.IndexTerm.Standardization

/-!
# Free variables with other numbers

To raise the free indices of a term makes no difference to how it is reduced. A substitution meets
the same variables, since a raised index is never that of the binder that goes; the shifts of the
other passes change indices only. So a step does the same to a tree and to the tree that was raised
(`Renumbered`), and what is then reached from the root is what the step makes of the tree, raised.
What is left behind may differ in its indices.

Main statement: `step_renumbered`.
-/

namespace WeakHead

/-- An index or a counter of binders has left its range. -/
def Fault.IsOverflow : Fault → Prop
  | indexOutside _ _ _ => True
  | tooManyBinders => True
  | _ => False

/-- All indices and all counters of binders stay in range. -/
def StaysInRange {α : Type} (x : Except Fault α) : Prop :=
  ∀ fault, x = .error fault → ¬ fault.IsOverflow

lemma StaysInRange.of_bind {α β : Type} {x : Except Fault α} {f : α → Except Fault β}
    (fit : StaysInRange (x.bind f)) : StaysInRange x := by
  intro fault e
  rw [e] at fit
  exact fit fault rfl

lemma staysInRange_of_map {α β : Type} {x : Except Fault α} {f : α → β} {b}
    (e : x.map f = .ok b) : StaysInRange x := by
  obtain ⟨a, rfl, -⟩ := map_eq_ok_iff.1 e
  exact nofun

lemma Agree.isOverflow {α β : Type} {P : α → β → Prop} {x : Except Fault α} {y : Except Fault β}
    (ag : Agree P x y) {fault} (e : x = .error fault) : fault.IsOverflow := by
  cases ag with
  | ok _ => cases e
  | error alike =>
    cases e
    cases alike <;> trivial

namespace Heap

variable {h h' g g' : Heap} {root slot replacement : Slot} {t u u' body arg : IndexTerm}
  {S E B A : Finset Slot} {redex : Redex} {cutoff amount n : Nat}

/-! ### Faults on a tree -/

lemma Unfolds.isOverflow_of_shift (un : h.Unfolds root t) {cutoff} {amount : Int} {fault}
    (e : h.shift root cutoff amount = .error fault) : fault.IsOverflow :=
  ((alike_self h).shift ⟨rfl, t, un⟩ un cutoff amount).isOverflow e

lemma Unfolds.isOverflow_of_step (un : h.Unfolds root t) {fault}
    (e : h.step root = .error fault) : fault.IsOverflow :=
  ((alike_self h).step ⟨rfl, t, un⟩ un).isOverflow e

/-- On a tree nothing can go wrong with single steps but an overflow. -/
lemma TreeAt.isOverflow_of_stepTimes {r : Run} {fault} (tr : r.heap.TreeAt root t S)
    (e : Run.stepTimes root n r = .error fault) : fault.IsOverflow := by
  induction n generalizing r t S with
  | zero => cases e
  | succ n ih =>
    rw [Run.stepTimes] at e
    cases es : r.step root with
    | error fault' =>
      rw [es] at e
      cases e
      cases eh : r.heap.step root with
      | error fault' =>
        rw [Run.step, eh] at es
        cases es
        exact tr.unfolds.isOverflow_of_step eh
      | ok found =>
        rw [Run.step, eh] at es
        cases es
    | ok r₁ =>
      obtain ⟨found, eh⟩ := exists_found_of_step es
      obtain ⟨_, t', S', -, tr', -⟩ := tr.stepLeaves eh
      rw [es] at e
      exact ih tr' e

/-- Nor with a whole run. -/
lemma TreeAt.exists_run {budget} (tr : h.TreeAt root t S)
    (fit : StaysInRange (h.whnfWithin root budget)) :
    ∃ r found, Run.stepTimes root budget (.start h) = .ok r ∧ r.heap.headRedex root = .ok found ∧
      h.whnfWithin root budget = .ok (r, r.outcome found) := by
  rw [whnfWithin, Run.continueWithin_eq] at fit ⊢
  cases e : Run.stepTimes root budget (.start h) with
  | error fault =>
    rw [e] at fit
    exact absurd (TreeAt.isOverflow_of_stepTimes (r := .start h) tr e) (fit fault rfl)
  | ok r =>
    obtain ⟨_, _, t', S', tr', -⟩ := TreeAt.leaves_of_stepTimes (r := .start h) tr e
    obtain ⟨found, er⟩ := tr'.headRedex_ok
    exact ⟨r, found, rfl, er, by rw [bind_ok, er]; rfl⟩

/-! ### A tree and the raised tree -/

/-- The slots hold a tree in both heaps, and the second is the first with its free indices raised;
elsewhere too the heaps differ in indices only. -/
structure Renumbered (h g : Heap) (slot : Slot) (t : IndexTerm) (S : Finset Slot)
    (cutoff amount : Nat) : Prop where
  tree : h.TreeAt slot t S
  raised : g.TreeAt slot (t.raise amount cutoff) S
  reindexed : Reindexed h g

/-- The heaps have as many nodes, and the same nodes on the same ways down from the root. -/
structure SameFrom (root : Slot) (h g : Heap) : Prop where
  size_eq : g.size = h.size
  follow_eq : ∀ path, g.follow root path = h.follow root path
  get_eq : ∀ x, h.Reaches root x → g.get x = h.get x

namespace Renumbered

lemma of_unfolds (tr : h.TreeAt slot t S) (re : Reindexed h g)
    (un : g.Unfolds slot (t.raise amount cutoff)) : Renumbered h g slot t S cutoff amount :=
  ⟨tr, tr.reindexed re un, re⟩

lemma of_shift (tr : h.TreeAt slot t S) (e : h.shift slot cutoff amount = .ok g) :
    Renumbered h g slot t S cutoff amount := by
  have trg := (tr.shifted e).tree
  rw [IndexTerm.shiftBy_natCast] at trg
  exact ⟨tr, trg, reindexed_of_shift e⟩

lemma lam_inv {body : Slot} (rn : Renumbered h g slot t S cutoff amount)
    (hg : h.get slot = .ok (.lam body)) :
    ∃ u B, t = .lam u ∧ S = insert slot B ∧ Renumbered h g body u B (cutoff + 1) amount := by
  obtain ⟨u, B, rfl, rfl, trB⟩ := rn.tree.lam_inv hg
  obtain ⟨_, _, e, -, trB'⟩ := rn.raised.lam_inv (rn.reindexed.get_lam hg)
  cases e
  exact ⟨u, B, rfl, rfl, of_unfolds trB rn.reindexed trB'.unfolds⟩

lemma app_inv {fn arg : Slot} (rn : Renumbered h g slot t S cutoff amount)
    (hg : h.get slot = .ok (.app fn arg)) :
    ∃ u v F A, t = .app u v ∧ S = insert slot (F ∪ A) ∧ Disjoint F A ∧
      Renumbered h g fn u F cutoff amount ∧ Renumbered h g arg v A cutoff amount := by
  obtain ⟨u, v, F, A, rfl, rfl, trF, trA, dis⟩ := rn.tree.app_inv hg
  obtain ⟨_, _, _, _, e, -, trF', trA', -⟩ := rn.raised.app_inv (rn.reindexed.get_app hg)
  cases e
  exact ⟨u, v, F, A, rfl, rfl, dis, of_unfolds trF rn.reindexed trF'.unfolds,
    of_unfolds trA rn.reindexed trA'.unfolds⟩

/-- What is done to both heaps away from the trees leaves the tree raised. -/
lemma after {T : Finset Slot} (rn : Renumbered h g slot t S cutoff amount) (kp : Keeps h h' T)
    (kp' : Keeps g g' T) (dis : Disjoint S T) (re : Reindexed h' g') :
    Renumbered h' g' slot t S cutoff amount :=
  ⟨rn.tree.frame kp dis, rn.raised.frame kp' dis, re⟩

/-! ### The passes of a contraction -/

/-- A substitution for a variable that is bound on the way puts copies into the same slots. -/
lemma substituteAmongOld {old depth level crossed : Nat}
    (rn : Renumbered h g slot t S cutoff amount) (trE : h.TreeAt replacement u E)
    (trE' : g.TreeAt replacement u' E) (dis : Disjoint S E) (hold : ∀ x ∈ S, x < old)
    (hd : t.height ≤ depth) (lt : level < cutoff)
    (e : substituteAmongOld replacement old depth h slot level crossed = .ok h')
    (e' : substituteAmongOld replacement old depth g slot level crossed = .ok g') :
    Reindexed h' g' := by
  induction t generalizing h g h' g' slot S depth cutoff level crossed with
  | idx index =>
    obtain ⟨depth, rfl⟩ := IndexTerm.depth_eq_succ hd
    rw [substituteAmongOld_of_lt (hold _ rn.tree.root_mem)] at e e'
    cases rn.tree with
    | idx hg =>
      cases rn.raised with
      | idx hg' =>
        -- A raised index is past the cutoff before and after, so it is not that of the variable.
        have same : (if index < cutoff then index else index + amount) = level ↔ index = level := by
          split_ifs <;> omega
        rw [substituteAt_idx hg] at e
        rw [substituteAt_idx hg'] at e'
        by_cases hl : index = level
        · rw [if_pos hl] at e
          rw [if_pos (same.2 hl)] at e'
          exact rn.reindexed.replaceByCopy e e'
        · rw [if_neg hl] at e
          rw [if_neg (mt same.1 hl)] at e'
          cases e
          cases e'
          exact rn.reindexed
  | lam body ih =>
    obtain ⟨depth, rfl⟩ := IndexTerm.depth_eq_succ hd
    rw [substituteAmongOld_of_lt (hold _ rn.tree.root_mem)] at e e'
    cases rn.tree.unfolds with
    | lam hg _ =>
      obtain ⟨_, B, et, rfl, rnB⟩ := rn.lam_inv hg
      cases et
      rw [Finset.disjoint_insert_left] at dis
      rw [substituteAt_lam hg, bind_eq_ok_iff] at e
      rw [substituteAt_lam (rn.reindexed.get_lam hg), bind_eq_ok_iff] at e'
      obtain ⟨inner, ec, e⟩ := e
      obtain ⟨inner', ec', e'⟩ := e'
      obtain ⟨-, rfl⟩ := crossBinder_eq_ok_iff.1 ec
      obtain ⟨-, rfl⟩ := crossBinder_eq_ok_iff.1 ec'
      exact ih rnB trE trE' dis.2 (fun x hx => hold x (Finset.mem_insert_of_mem hx))
        (Nat.le_of_succ_le_succ hd) (Nat.succ_lt_succ lt) e e'
  | app fn arg ihf iha =>
    obtain ⟨depth, rfl⟩ := IndexTerm.depth_eq_succ hd
    have hd := Nat.le_of_succ_le_succ hd
    have hd' : (fn.raise amount cutoff).height ≤ depth := by
      rw [IndexTerm.height_raise]
      exact le_of_max_le_left hd
    rw [substituteAmongOld_of_lt (hold _ rn.tree.root_mem)] at e e'
    cases rn.tree.unfolds with
    | app hg _ _ =>
      obtain ⟨_, _, F, A, et, rfl, disFA, rnF, rnA⟩ := rn.app_inv hg
      cases et
      rw [Finset.disjoint_insert_left, Finset.disjoint_union_left] at dis
      rw [substituteAt_app hg, bind_eq_ok_iff] at e
      rw [substituteAt_app (rn.reindexed.get_app hg), bind_eq_ok_iff] at e'
      obtain ⟨h₁, e₁, e₂⟩ := e
      obtain ⟨g₁, e₁', e₂'⟩ := e'
      have holdF : ∀ x ∈ F, x < old :=
        fun x hx => hold x (Finset.mem_insert_of_mem (Finset.mem_union_left A hx))
      have holdA : ∀ x ∈ A, x < old :=
        fun x hx => hold x (Finset.mem_insert_of_mem (Finset.mem_union_right F hx))
      have re₁ := ihf rnF trE trE' dis.2.1 holdF (le_of_max_le_left hd) lt e₁ e₁'
      have kp := (rnF.tree.substituted_of_walk trE dis.2.1 holdF (le_of_max_le_left hd) e₁).keeps
      have kp' := (rnF.raised.substituted_of_walk trE' dis.2.1 holdF hd' e₁').keeps
      exact iha (rnA.after kp kp' disFA.symm re₁) (trE.frame kp dis.2.1.symm)
        (trE'.frame kp' dis.2.1.symm) dis.2.2 holdA (le_of_max_le_right hd) lt e₂ e₂'

/-- A contraction does the same to both heaps, but for indices. -/
lemma contract (rnB : Renumbered h g redex.body body B (cutoff + 1) amount)
    (rnA : Renumbered h g redex.arg arg A cutoff amount) (dis : Disjoint B A)
    (e : h.contract redex = .ok h') (e' : g.contract redex = .ok g') : Reindexed h' g' := by
  obtain ⟨h₁, h₂, h₃, node, e₁, e₂, e₃, hg, rfl⟩ := exists_passes e
  obtain ⟨g₁, g₂, g₃, node', e₁', e₂', e₃', hg', rfl⟩ := exists_passes e'
  obtain ⟨trB, trA, -, -⟩ := rnB.tree.after_raise rnA.tree dis e₁
  obtain ⟨trB', trA', -, -⟩ := rnB.raised.after_raise rnA.raised dis e₁'
  have re₁ := rnB.reindexed.shift e₁ e₁'
  have rnB₁ := of_unfolds trB re₁ trB'.unfolds
  rw [substitute] at e₂
  rw [substitute, re₁.depthBound_eq, re₁.size_eq] at e₂'
  have re₂ := rnB₁.substituteAmongOld trA trA' dis (fun x hx => trB.lt_size hx)
    (trB.height_le.trans (Nat.le_add_right _ _)) cutoff.succ_pos e₂ e₂'
  exact (re₂.shift e₃ e₃').put hg hg' redex.slot

/-- The redex on the spine, in both heaps. -/
lemma exists_parts (os : h.OnSpine redex slot n) (rn : Renumbered h g slot t S cutoff amount) :
    ∃ body arg B A, Disjoint B A ∧ Renumbered h g redex.body body B (cutoff + 1) amount ∧
      Renumbered h g redex.arg arg A cutoff amount := by
  induction os generalizing t S with
  | here hg hf =>
    obtain ⟨_, arg, F, A, rfl, -, dis, rnF, rnA⟩ := rn.app_inv hg
    obtain ⟨body, B, rfl, rfl, rnB⟩ := rnF.lam_inv hf
    rw [Finset.disjoint_insert_left] at dis
    exact ⟨body, arg, B, A, dis.2, rnB, rnA⟩
  | up hg _ _ _ ih =>
    obtain ⟨_, _, _, _, rfl, -, -, rnF, -⟩ := rn.app_inv hg
    exact ih rnF

/-- A step does the same to a tree and to the raised tree. -/
lemma step {found found'} (rn : Renumbered h g root t S cutoff amount)
    (e : h.step root = .ok (h', found)) (e' : g.step root = .ok (g', found')) :
    found' = found ∧ ∃ t' S', Renumbered h' g' root t' S' cutoff amount := by
  have er := rn.reindexed.headRedex_eq root
  cases found with
  | none =>
    obtain ⟨en, rfl⟩ := step_eq_none_iff.1 e
    rw [step_eq_none_iff.2 ⟨er.trans en, rfl⟩] at e'
    cases e'
    exact ⟨rfl, t, S, rn⟩
  | some slot =>
    obtain ⟨redex, n, rfl, en, os, ec⟩ := onSpine_of_step e
    have eg := e'
    rw [step_eq, bind_eq_ok_iff] at e'
    obtain ⟨_, en', e'⟩ := e'
    cases (er.trans en).symm.trans en'
    obtain ⟨g₁, ec', e'⟩ := map_eq_ok_iff.1 e'
    cases e'
    obtain ⟨body, arg, B, A, dis, rnB, rnA⟩ := exists_parts os rn
    have re := rnB.contract rnA dis ec ec'
    cases et : t.headStep? with
    | none => cases (rn.tree.headRedex_eq_none_iff.2 et).symm.trans en
    | some t' =>
      obtain ⟨_, -, ⟨S', tr', -⟩, -⟩ := (rn.tree.step_of_some et).2 _ e
      have et' := IndexTerm.headStep_raise et amount cutoff
      obtain ⟨_, -, ⟨_, trg, -⟩, -⟩ := (rn.raised.step_of_some et').2 _ eg
      exact ⟨rfl, t', S', of_unfolds tr' re trg.unfolds⟩

/-- However many steps are made, they contract the same slots. -/
lemma stepTimes {r r' s s' : Run} (rn : Renumbered r.heap s.heap root t S cutoff amount)
    (same : s.contracted = r.contracted) (e : Run.stepTimes root n r = .ok r')
    (e' : Run.stepTimes root n s = .ok s') :
    s'.contracted = r'.contracted ∧
      ∃ t' S', Renumbered r'.heap s'.heap root t' S' cutoff amount := by
  induction n generalizing r s t S with
  | zero =>
    cases e
    cases e'
    exact ⟨same, t, S, rn⟩
  | succ n ih =>
    obtain ⟨r₁, e₁, e⟩ := bind_eq_ok_iff.1 e
    obtain ⟨s₁, e₁', e'⟩ := bind_eq_ok_iff.1 e'
    obtain ⟨⟨heap, found⟩, es, rfl⟩ := map_eq_ok_iff.1 e₁
    obtain ⟨⟨heap', found'⟩, es', rfl⟩ := map_eq_ok_iff.1 e₁'
    obtain ⟨rfl, t', S', rn'⟩ := rn.step es es'
    cases found' with
    | none => exact ih (r := ⟨heap, r.contracted⟩) (s := ⟨heap', s.contracted⟩) rn' same e e'
    | some slot =>
      exact ih (r := ⟨heap, r.contracted.push slot⟩) (s := ⟨heap', s.contracted.push slot⟩) rn'
        (congrArg (·.push slot) same) e e'

/-- What the root reaches is the same as after the shift. -/
lemma sameFrom (rn : Renumbered h g root t S cutoff amount)
    (e : h.shift root cutoff amount = .ok h') : SameFrom root h' g := by
  have sh := of_shift rn.tree e
  have re := sh.reindexed.symm.trans rn.reindexed
  refine ⟨re.size_eq, re.follow_eq root, fun x hr => ?_⟩
  exact sh.raised.get_eq rn.raised.unfolds re (sh.raised.mem_iff_reaches.2 hr)

end Renumbered

/-- In range, the tree is shifted. -/
lemma TreeAt.exists_renumbered (tr : h.TreeAt root t S)
    (fit : StaysInRange (h.shift root cutoff amount)) :
    ∃ g, h.shift root cutoff amount = .ok g ∧ Renumbered h g root t S cutoff amount := by
  cases e : h.shift root cutoff amount with
  | error fault => exact absurd (tr.unfolds.isOverflow_of_shift e) (fit fault e)
  | ok g => exact ⟨g, rfl, .of_shift tr e⟩

lemma TreeAt.exists_step (tr : h.TreeAt root t S) (fit : StaysInRange (h.step root)) :
    ∃ h' found, h.step root = .ok (h', found) := by
  cases e : h.step root with
  | error fault => exact absurd (tr.unfolds.isOverflow_of_step e) (fit fault e)
  | ok r => exact ⟨r.1, r.2, rfl⟩

/-- Raising the free indices of a tree commutes with steps. As long as all indices and counters of
binders stay in range on both sides, a shift and a step contract the same slot as the step and the
shift, or find none; the heaps at the end have as many nodes, and the same ones below the root. So a
reduction within any budget contracts the same slots, with the same outcome, before and after the
shift. -/
theorem step_renumbered {a : Int} (un : h.Unfolds root t) (sp : h.SpansTree root) (ha : 0 ≤ a) :
    (StaysInRange ((h.shift root cutoff a).bind fun g => g.step root) →
      StaysInRange ((h.step root).bind fun r => r.1.shift root cutoff a) →
      ∃ g h₁ g₁ h₂ found, h.shift root cutoff a = .ok g ∧ g.step root = .ok (g₁, found) ∧
        h.step root = .ok (h₁, found) ∧ h₁.shift root cutoff a = .ok h₂ ∧ SameFrom root h₂ g₁) ∧
    ∀ budget, StaysInRange ((h.shift root cutoff a).bind fun g => g.whnfWithin root budget) →
      StaysInRange (h.whnfWithin root budget) →
      ∃ g r s outcome, h.shift root cutoff a = .ok g ∧
        h.whnfWithin root budget = .ok (r, outcome) ∧ g.whnfWithin root budget = .ok (s, outcome) ∧
        s.contracted = r.contracted ∧
        ∀ h₂, r.heap.shift root cutoff a = .ok h₂ → SameFrom root h₂ s.heap := by
  obtain ⟨amount, rfl⟩ := Int.eq_ofNat_of_zero_le ha
  obtain ⟨S, tr⟩ := un.treeAt sp
  refine ⟨fun fit fit' => ?_, fun budget fit fit' => ?_⟩
  · obtain ⟨g, e, rn⟩ := tr.exists_renumbered fit.of_bind
    rw [e, bind_ok] at fit
    obtain ⟨g₁, found, es⟩ := rn.raised.exists_step fit
    obtain ⟨h₁, found', es'⟩ := tr.exists_step fit'.of_bind
    obtain ⟨rfl, t', S', rn'⟩ := rn.step es' es
    rw [es', bind_ok] at fit'
    obtain ⟨h₂, e', -⟩ := rn'.tree.exists_renumbered fit'
    exact ⟨g, h₁, g₁, h₂, found, e, es, es', e', rn'.sameFrom e'⟩
  · obtain ⟨g, e, rn⟩ := tr.exists_renumbered fit.of_bind
    rw [e, bind_ok] at fit
    obtain ⟨r, found, er, ef, ew⟩ := tr.exists_run fit'
    obtain ⟨s, found', es, ef', ew'⟩ := rn.raised.exists_run fit
    obtain ⟨same, t', S', rn'⟩ := Renumbered.stepTimes (r := .start h) (s := .start g) rn rfl er es
    rw [rn'.reindexed.headRedex_eq root, ef] at ef'
    cases ef'
    have eo : s.outcome found = r.outcome found := by
      cases found <;> simp only [Run.outcome, Run.steps, same]
    exact ⟨g, r, s, r.outcome found, e, ew, eo ▸ ew', same, fun h₂ e' => rn'.sameFrom e'⟩

/-- The term `((λ (0 2)) 1)`, in which 1 is free under the binder and beside it. -/
def freeInRedex : Heap :=
  ⟨#[.idx 0, .idx 2, .app 0 1, .lam 2, .idx 1, .app 3 4]⟩

lemma freeInRedex_postAt :
    freeInRedex.PostAt 0 (.app (.lam (.app (.idx 0) (.idx 2))) (.idx 1)) 5 :=
  .app (.lam (.app (.idx rfl) (.idx rfl) rfl) rfl) (.idx rfl) rfl

/-- The free variable passes the binder that goes: under it, it is past a cutoff of two. -/
theorem step_renumbered_free_in_redex :
    (∃ g h₁ g₁ h₂, freeInRedex.shift 5 1 3 = .ok g ∧ g.step 5 = .ok (g₁, some 5) ∧
      freeInRedex.step 5 = .ok (h₁, some 5) ∧ h₁.shift 5 1 3 = .ok h₂ ∧ SameFrom 5 h₂ g₁) ∧
    ∃ g r s, freeInRedex.shift 5 1 3 = .ok g ∧ freeInRedex.whnfWithin 5 4 = .ok (r, .reached 1) ∧
      g.whnfWithin 5 4 = .ok (s, .reached 1) ∧ s.contracted = r.contracted := by
  have tr := freeInRedex_postAt.tree
  obtain ⟨once, run⟩ := step_renumbered tr.unfolds tr.spansTree (show (0 : Int) ≤ 3 by decide)
  constructor
  · have left : ((freeInRedex.shift 5 1 3).bind fun g => g.step 5).map Prod.snd = .ok (some 5) := by
      decide +kernel
    have right : ((freeInRedex.step 5).bind fun r => r.1.shift 5 1 3).map size = .ok 7 := by
      decide +kernel
    obtain ⟨g, h₁, g₁, h₂, found, e, es, es', e', same⟩ :=
      once (staysInRange_of_map left) (staysInRange_of_map right)
    rw [e, bind_ok, es] at left
    cases left
    exact ⟨g, h₁, g₁, h₂, e, es, es', e', same⟩
  · have left : ((freeInRedex.shift 5 1 3).bind fun g => g.whnfWithin 5 4).map Prod.snd =
        .ok (.reached 1) := by decide +kernel
    have right : (freeInRedex.whnfWithin 5 4).map Prod.snd = .ok (.reached 1) := by decide +kernel
    obtain ⟨g, r, s, outcome, e, ew, ew', same, -⟩ :=
      run 4 (staysInRange_of_map left) (staysInRange_of_map right)
    rw [ew] at right
    cases right
    exact ⟨g, r, s, e, ew, ew', same⟩

end Heap

end WeakHead

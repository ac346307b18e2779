import WeakHead.Proofs.Heap.Grafting
import WeakHead.Proofs.Heap.Stepping

/-!
# The frame of a step

`Sprouted` tells what has come of a heap while passes worked below one of its slots: old nodes are
kept, except that a variable below the slot may have been overwritten, and what was put there, like
every new node, has new parts only. So a way down that has once left the old nodes never comes back,
and a pass that goes into what it has put in still writes nowhere else.

A contraction adds one write, to the slot of the redex. The applications on the spine above it have
no abstraction as function, so none of them is the redex, and the spine stays as it is.

Main statement: `step_frame`.
-/

namespace WeakHead.Heap

variable {h₀ h h' : Heap} {root slot x : Slot} {redex : Redex} {n : Nat}

/-! ### Below a slot -/

/-- What comes of the heap `h₀` while passes work below `root`. -/
structure Sprouted (h₀ : Heap) (root : Slot) (h : Heap) : Prop where
  size_le : h₀.size ≤ h.size
  old : ∀ x < h₀.size, h.get x = h₀.get x ∨
    (h₀.Reaches root x ∧ ∃ i, h₀.get x = .ok (.idx i)) ∧
      ∃ node, h.get x = .ok node ∧ ∀ part ∈ node.parts, h₀.size ≤ part
  fresh : ∀ x node, h₀.size ≤ x → h.get x = .ok node → ∀ part ∈ node.parts, h₀.size ≤ part

/-- The slot is new, or `root` led to it before. -/
def Below (h₀ : Heap) (root x : Slot) : Prop :=
  h₀.size ≤ x ∨ h₀.Reaches root x

lemma Below.of_lt {h₀ : Heap} {root x : Slot} (bl : h₀.Below root x) (hx : x < h₀.size) :
    h₀.Reaches root x :=
  bl.resolve_left (Nat.not_le.2 hx)

namespace Sprouted

lemma refl (h : Heap) (root : Slot) : Sprouted h root h where
  size_le := Nat.le_refl _
  old _ _ := .inl rfl
  fresh _ _ le hg := absurd (lt_size_of_get_eq_ok hg) (Nat.not_lt.2 le)

/-- Ways down from below stay below. -/
lemma below_part (sp : Sprouted h₀ root h) {node} (bl : h₀.Below root x) (hg : h.get x = .ok node) :
    ∀ part ∈ node.parts, h₀.Below root part := by
  intro part hm
  by_cases hx : x < h₀.size
  · rcases sp.old x hx with e | ⟨-, node', hg', new⟩
    · by_cases hp : part < h₀.size
      · obtain ⟨i, ei⟩ := exists_follow_part (e.symm.trans hg) hm hp
        exact .inr ((bl.of_lt hx).trans ⟨[i], ei⟩)
      · exact .inl (Nat.le_of_not_lt hp)
    · cases hg.symm.trans hg'
      exact .inl (new part hm)
  · exact .inl (sp.fresh x node (Nat.le_of_not_lt hx) hg part hm)

/-- A slot that holds a variable now held one before, if it is old. -/
lemma get_idx (sp : Sprouted h₀ root h) {i} (hx : x < h₀.size) (hg : h.get x = .ok (.idx i)) :
    ∃ j, h₀.get x = .ok (.idx j) := by
  rcases sp.old x hx with e | ⟨⟨-, ex⟩, -⟩
  · exact ⟨i, e.symm.trans hg⟩
  · exact ex

/-- A variable below the root may be overwritten by a node with new parts. -/
lemma write (sp : Sprouted h₀ root h) (bl : h₀.Below root x) {i} (hg : h.get x = .ok (.idx i))
    (kp : Keeps h h' {x})
    (there : ∃ node, h'.get x = .ok node ∧ ∀ part ∈ node.parts, h₀.size ≤ part)
    (new : ∀ y node, h.size ≤ y → h'.get y = .ok node → ∀ part ∈ node.parts, h₀.size ≤ part) :
    Sprouted h₀ root h' := by
  have other : ∀ y < h.size, y ≠ x → h'.get y = h.get y := fun y hy ne =>
    kp.get_eq hy fun hm => ne (Finset.mem_singleton.1 hm)
  refine ⟨sp.size_le.trans kp.size_le, fun y hy => ?_, fun y node le hg' => ?_⟩
  · by_cases ey : y = x
    · subst ey
      exact .inr ⟨⟨bl.of_lt hy, sp.get_idx hy hg⟩, there⟩
    · rw [other y (hy.trans_le sp.size_le) ey]
      exact sp.old y hy
  · by_cases hy : y < h.size
    · by_cases ey : y = x
      · subst ey
        obtain ⟨node', hg'', inner⟩ := there
        cases hg'.symm.trans hg''
        exact inner
      · exact sp.fresh y node le ((other y hy ey).symm.trans hg')
    · exact new y node (Nat.le_of_not_lt hy) hg'

lemma shift (sp : Sprouted h₀ root h) (bl : h₀.Below root slot) {cutoff amount}
    (e : h.shift slot cutoff amount = .ok h') : Sprouted h₀ root h' := by
  refine shiftWithin_keeps (P := Sprouted h₀ root) (I := h₀.Below root)
    (fun _ _ _ sp bl hg => sp.below_part bl hg) (fun g x i j sp bl hg => ?_) sp bl e
  have there := get_put_self (.idx j) (lt_size_of_get_eq_ok hg)
  refine sp.write bl hg (keeps_put g x _ (Finset.mem_singleton_self x)) ⟨.idx j, there, nofun⟩
    fun y node le hg' => ?_
  have lt := lt_size_of_get_eq_ok hg'
  rw [size_put] at lt
  exact absurd lt (Nat.not_lt.2 le)

lemma replaceByCopy (sp : Sprouted h₀ root h) (bl : h₀.Below root x) {i replacement crossed}
    (hg : h.get x = .ok (.idx i)) (e : h.replaceByCopy x replacement crossed = .ok h') :
    Sprouted h₀ root h' := by
  have gf := grafts_of_replaceByCopy (lt_size_of_get_eq_ok hg) e
  obtain ⟨node, hg', new⟩ := gf.root
  exact sp.write bl hg gf.keeps ⟨node, hg', fun part hm => sp.size_le.trans (new part hm).1⟩
    fun y node le hg part hm => sp.size_le.trans (gf.parts le hg part hm).1

lemma substituteWithin (sp : Sprouted h₀ root h) (bl : h₀.Below root slot)
    {replacement depth level crossed}
    (e : substituteWithin replacement depth h slot level crossed = .ok h') : Sprouted h₀ root h' :=
  substituteWithin_keeps (P := Sprouted h₀ root) (I := h₀.Below root)
    (fun _ _ _ sp bl hg => sp.below_part bl hg)
    (fun _ _ _ _ _ sp bl hg e => sp.replaceByCopy bl hg e) sp bl e

lemma substitute (sp : Sprouted h₀ root h) (bl : h₀.Below root slot) {replacement level}
    (e : h.substitute slot replacement level = .ok h') : Sprouted h₀ root h' :=
  substitute_keeps (P := Sprouted h₀ root) (I := h₀.Below root)
    (fun _ _ _ sp bl hg => sp.below_part bl hg)
    (fun _ _ _ _ _ sp bl hg e => sp.replaceByCopy bl hg e) sp bl e

/-- Abstractions and applications stay what they are. -/
lemma get_of_ne_idx (sp : Sprouted h₀ root h) {node} (hg : h₀.get x = .ok node)
    (hn : ∀ i, node ≠ .idx i) : h.get x = .ok node := by
  rcases sp.old x (lt_size_of_get_eq_ok hg) with e | ⟨⟨-, i, hg'⟩, -⟩
  · exact e.trans hg
  · cases hg.symm.trans hg'
    exact absurd rfl (hn i)

end Sprouted

/-- The slot itself is where a pass begins, or it is not in the heap. -/
lemma below_self (h : Heap) (slot : Slot) : h.Below slot slot := by
  by_cases hs : slot < h.size
  · exact .inr (reaches_self hs)
  · exact .inl (Nat.le_of_not_lt hs)

/-! ### The spine -/

/-- The redex is found by going down from a slot by `n` functions. -/
inductive OnSpine (h : Heap) (redex : Redex) : Slot → Nat → Prop where
  | here {fn : Slot} :
    h.get redex.slot = .ok (.app fn redex.arg) →
    h.get fn = .ok (.lam redex.body) →
    OnSpine h redex redex.slot 0
  | up {slot fn arg : Slot} {node : Node} {n : Nat} :
    h.get slot = .ok (.app fn arg) →
    h.get fn = .ok node →
    (∀ body, node ≠ .lam body) →
    OnSpine h redex fn n →
    OnSpine h redex slot (n + 1)

/-- Between `root` and `slot` there are applications only, one the function of the other, and they
are the same in both heaps. -/
def SpineKept (h h' : Heap) (root slot : Slot) : Prop :=
  ∃ n, h.follow root (.replicate n 0) = some slot ∧ h'.follow root (.replicate n 0) = some slot ∧
    ∀ m < n, ∃ x fn arg, h.follow root (.replicate m 0) = some x ∧
      h'.follow root (.replicate m 0) = some x ∧
      h.get x = .ok (.app fn arg) ∧ h'.get x = .ok (.app fn arg)

lemma onSpine_of_headRedexWithin {depth} (e : h.headRedexWithin depth slot = .ok (some redex)) :
    ∃ n, h.OnSpine redex slot n := by
  induction depth generalizing slot with
  | zero => cases e
  | succ depth ih =>
    cases hg : h.get slot with
    | error fault =>
      rw [headRedexWithin, hg] at e
      cases e
    | ok node =>
      cases node with
      | app fn arg =>
        cases hf : h.get fn with
        | error fault =>
          simp only [headRedexWithin, hg] at e
          change (h.get fn >>= _) = _ at e
          rw [hf] at e
          cases e
        | ok node =>
          cases node with
          | lam body =>
            rw [headRedexWithin_lam hg hf] at e
            cases e
            exact ⟨0, .here hg hf⟩
          | _ =>
            rw [headRedexWithin_app hg hf (by simp)] at e
            obtain ⟨n, os⟩ := ih e
            exact ⟨n + 1, .up hg hf (by simp) os⟩
      | idx index =>
        rw [headRedexWithin_idx hg] at e
        cases e
      | lam body =>
        rw [headRedexWithin_abs hg] at e
        cases e
      | var name =>
        rw [headRedexWithin, hg] at e
        cases e
      | abs binder body =>
        rw [headRedexWithin, hg] at e
        cases e

namespace OnSpine

lemma get_redex (os : h.OnSpine redex slot n) :
    ∃ fn, h.get redex.slot = .ok (.app fn redex.arg) ∧ h.get fn = .ok (.lam redex.body) := by
  induction os with
  | here hg hf => exact ⟨_, hg, hf⟩
  | up _ _ _ _ ih => exact ih

/-- An application of another node than an abstraction is not the redex. -/
lemma ne_redex (os : h.OnSpine redex root n) {fn arg node} (hg : h.get slot = .ok (.app fn arg))
    (hf : h.get fn = .ok node) (hn : ∀ body, node ≠ .lam body) : slot ≠ redex.slot := by
  rintro rfl
  obtain ⟨fn', hg', hf'⟩ := os.get_redex
  cases hg.symm.trans hg'
  cases hf.symm.trans hf'
  exact hn _ rfl

/-- The spine stays if all applications but the redex do. -/
lemma spineKept (os : h.OnSpine redex slot n) (there : ∃ node, h'.get redex.slot = .ok node)
    (kept : ∀ x fn arg, h.get x = .ok (.app fn arg) → x ≠ redex.slot →
      h'.get x = .ok (.app fn arg)) : SpineKept h h' slot redex.slot := by
  induction os with
  | here hg _ =>
    obtain ⟨node, hg'⟩ := there
    exact ⟨0, follow_nil hg, follow_nil hg', fun m hm => absurd hm (Nat.not_lt_zero m)⟩
  | @up slot fn arg node n hg hf hn os ih =>
    obtain ⟨n, e, e', above⟩ := ih
    have hg' := kept slot fn arg hg (os.ne_redex hg hf hn)
    have down : ∀ m, h.follow slot (.replicate (m + 1) 0) = h.follow fn (.replicate m 0) ∧
        h'.follow slot (.replicate (m + 1) 0) = h'.follow fn (.replicate m 0) := fun m => by
      rw [List.replicate_succ, follow_cons hg, follow_cons hg']
      exact ⟨rfl, rfl⟩
    refine ⟨n + 1, (down n).1.trans e, (down n).2.trans e', fun m hm => ?_⟩
    cases m with
    | zero => exact ⟨slot, fn, arg, follow_nil hg, follow_nil hg', hg, hg'⟩
    | succ m =>
      rw [(down m).1, (down m).2]
      exact above m (Nat.lt_of_succ_lt_succ hm)

end OnSpine

/-! ### A step -/

/-- The heaps between the passes of a contraction. -/
lemma exists_passes (e : h.contract redex = .ok h') :
    ∃ h₁ h₂ h₃ node, h.shift redex.arg 0 1 = .ok h₁ ∧
      h₁.substitute redex.body redex.arg 0 = .ok h₂ ∧ h₂.shift redex.body 0 (-1) = .ok h₃ ∧
      h₃.get redex.body = .ok node ∧ h' = h₃.put redex.slot node := by
  rw [contract_eq, bind_eq_ok_iff] at e
  obtain ⟨h₁, e₁, e⟩ := e
  obtain ⟨h₂, e₂, e⟩ := bind_eq_ok_iff.1 e
  obtain ⟨h₃, e₃, e₄⟩ := bind_eq_ok_iff.1 e
  obtain ⟨node, hg, -, rfl⟩ := copyOver_eq_ok_iff.1 e₄
  exact ⟨h₁, h₂, h₃, node, e₁, e₂, e₃, hg, rfl⟩

/-- The passes of a contraction work below the redex. -/
lemma OnSpine.sprouted {h₁ h₂ h₃ : Heap} (os : h.OnSpine redex root n)
    (e₁ : h.shift redex.arg 0 1 = .ok h₁) (e₂ : h₁.substitute redex.body redex.arg 0 = .ok h₂)
    (e₃ : h₂.shift redex.body 0 (-1) = .ok h₃) : Sprouted h redex.slot h₃ := by
  obtain ⟨fn, hg, hf⟩ := os.get_redex
  have sp := Sprouted.refl h redex.slot
  have inner := sp.below_part (below_self h redex.slot) hg
  have below := sp.below_part (inner fn List.mem_cons_self) hf redex.body List.mem_cons_self
  have sp₁ := sp.shift (inner redex.arg (List.mem_cons_of_mem _ List.mem_cons_self)) e₁
  exact (sp₁.substitute below e₂).shift below e₃

/-- A contraction overwrites the slot of the redex, and variables below it. -/
lemma contract_frame (os : h.OnSpine redex root n) (e : h.contract redex = .ok h') :
    h.size ≤ h'.size ∧ ∀ x < h.size, h'.get x ≠ h.get x →
      h.Reaches redex.slot x ∧ (x = redex.slot ∨ ∃ i, h.get x = .ok (.idx i)) := by
  obtain ⟨h₁, h₂, h₃, node, e₁, e₂, e₃, -, rfl⟩ := exists_passes e
  have sp := os.sprouted e₁ e₂ e₃
  refine ⟨sp.size_le.trans_eq (size_put _ _ _).symm, fun x hx ne => ?_⟩
  by_cases ex : x = redex.slot
  · subst ex
    exact ⟨reaches_self hx, .inl rfl⟩
  · rw [get_put_of_ne node ex] at ne
    obtain ⟨⟨hr, ix⟩, -⟩ := (sp.old x hx).resolve_left ne
    exact ⟨hr, .inr ix⟩

/-- A contraction leaves the spine above the redex as it is. -/
lemma spineKept_of_contract (os : h.OnSpine redex root n) (e : h.contract redex = .ok h') :
    SpineKept h h' root redex.slot := by
  obtain ⟨le, frame⟩ := contract_frame os e
  obtain ⟨fn, hg, -⟩ := os.get_redex
  refine os.spineKept (exists_get_of_lt ((lt_size_of_get_eq_ok hg).trans_le le))
    fun x fn arg hx ne => ?_
  by_contra hn
  rcases (frame x (lt_size_of_get_eq_ok hx) (hx ▸ hn)).2 with ex | ⟨i, hi⟩
  · exact ne ex
  · cases hx.symm.trans hi

lemma onSpine_of_step (e : h.step root = .ok (h', some slot)) :
    ∃ redex n, redex.slot = slot ∧ h.headRedex root = .ok (some redex) ∧
      h.OnSpine redex root n ∧ h.contract redex = .ok h' := by
  rw [step_eq, bind_eq_ok_iff] at e
  obtain ⟨found, er, e⟩ := e
  cases found with
  | none => cases e
  | some redex =>
    obtain ⟨h₁, ec, e⟩ := map_eq_ok_iff.1 e
    cases e
    obtain ⟨n, os⟩ := onSpine_of_headRedexWithin er
    exact ⟨redex, n, rfl, er, os, ec⟩

/-! ### From a source -/

/-- A step of a run is a step of its heap. -/
lemma exists_found_of_step {r r' : Run} (e : r.step root = .ok r') :
    ∃ found, r.heap.step root = .ok (r'.heap, found) := by
  obtain ⟨⟨h₁, found⟩, es, rfl⟩ := map_eq_ok_iff.1 e
  refine ⟨found, es.trans ?_⟩
  cases found <;> rfl

/-- Slots before those of a tree are not touched by single steps. -/
lemma TreeAt.get_of_stepTimes {r r' : Run} {t S k} (tr : r.heap.TreeAt root t S)
    (new : ∀ y ∈ S, k ≤ y) (hk : k ≤ r.heap.size) (e : Run.stepTimes root n r = .ok r') :
    ∀ x < k, r'.heap.get x = r.heap.get x := by
  induction n generalizing r t S with
  | zero =>
    cases e
    exact fun _ _ => rfl
  | succ n ih =>
    obtain ⟨r₁, e₁, e⟩ := bind_eq_ok_iff.1 e
    obtain ⟨found, es⟩ := exists_found_of_step e₁
    cases et : t.headStep? with
    | none =>
      rw [tr.step_of_none et] at es
      obtain ⟨eh, -⟩ := Prod.mk.inj (Except.ok.inj es)
      rw [eh] at tr hk ⊢
      exact ih tr new hk e
    | some t' =>
      obtain ⟨-, -, ⟨S', tr', w⟩, kp⟩ := (tr.step_of_some et).2 _ es
      intro x hx
      rw [ih tr' (fun y hy => (w hy).elim (new y) hk.trans) (hk.trans kp.size_le) e x hx]
      exact kp.get_eq (hx.trans_le hk) fun hm => absurd hx (Nat.not_lt.2 (new x hm))

/-- From a source, the named tree comes first, and what is reduced stands behind it. -/
lemma exists_tree_of_read {source named r} (eg : Graph.read source = .ok named)
    (er : Resolved.read source = .ok r) :
    ∃ t S, r.graph.heap.TreeAt r.graph.root t S ∧ (∀ y ∈ S, named.heap.size ≤ y) ∧
      Keeps named.heap r.graph.heap ∅ := by
  obtain ⟨t, ep, rfl⟩ := Graph.exists_term_of_read eg
  obtain ⟨r', er', bt, -⟩ := (Graph.unfoldsNamed_ofTerm t).resolve_ok (Graph.height_le_ofTerm t)
  cases (Resolved.read_of_resolve ep er').symm.trans er
  exact ⟨_, _, bt.tree, fun y hy => (Finset.mem_Ico.1 hy).1, bt.keeps⟩

lemma exists_run_of_parse {source t n k} (e : Term.parse source = .ok t)
    (run : ((Graph.ofTerm t).resolve.bind fun r =>
      (Run.stepTimes r.graph.root n (.start r.graph.heap)).map Run.steps) = .ok k) :
    ∃ r run, Graph.read source = .ok (.ofTerm t) ∧ Resolved.read source = .ok r ∧
      Run.stepTimes r.graph.root n (.start r.graph.heap) = .ok run ∧ run.steps = k := by
  obtain ⟨r, er, run⟩ := bind_eq_ok_iff.1 run
  obtain ⟨run, erun, es⟩ := map_eq_ok_iff.1 run
  exact ⟨r, run, by rw [Graph.read, e], Resolved.read_of_resolve e er, erun, es⟩

/-- What the passes and the steps leave alone, in any heap: nodes of any kind, shared or not. A
shift gives variables below its slot other indices, and appends nothing. A substitution overwrites
variables below its slot, and a step such variables below the redex and the redex itself; all else
is appended, and the spine down to the redex stays. From a source, the named tree is never touched
again, however many steps are made. -/
theorem step_frame :
    (∀ (h h' : Heap) slot cutoff amount, h.shift slot cutoff amount = .ok h' →
      h'.size = h.size ∧ ∀ x, h'.get x ≠ h.get x →
        h.Reaches slot x ∧ ∃ i j, h.get x = .ok (.idx i) ∧ h'.get x = .ok (.idx j)) ∧
    (∀ (h h' : Heap) slot replacement level, h.substitute slot replacement level = .ok h' →
      h.size ≤ h'.size ∧ ∀ x < h.size, h'.get x ≠ h.get x →
        h.Reaches slot x ∧ ∃ i, h.get x = .ok (.idx i)) ∧
    (∀ (h h' : Heap) root, h.step root = .ok (h', none) → h' = h) ∧
    (∀ (h h' : Heap) root slot, h.step root = .ok (h', some slot) →
      (h.size ≤ h'.size ∧ ∀ x < h.size, h'.get x ≠ h.get x →
        h.Reaches slot x ∧ (x = slot ∨ ∃ i, h.get x = .ok (.idx i))) ∧
      SpineKept h h' root slot) ∧
    ∀ source named r, Graph.read source = .ok named → Resolved.read source = .ok r →
      ∀ n run, Run.stepTimes r.graph.root n (.start r.graph.heap) = .ok run →
        ∀ x < named.heap.size, run.heap.get x = named.heap.get x := by
  refine ⟨fun h h' slot cutoff amount e => ?_, fun h h' slot replacement level e => ?_,
    fun h h' root e => (step_eq_none_iff.1 e).2, fun h h' root slot e => ?_,
    fun source named r eg er n run e x hx => ?_⟩
  · have re := reindexed_of_shift e
    have sp := (Sprouted.refl h slot).shift (below_self h slot) e
    refine ⟨re.size_eq, fun x ne => ?_⟩
    by_cases hx : x < h.size
    · obtain ⟨⟨hr, i, hg⟩, -⟩ := (sp.old x hx).resolve_left ne
      obtain ⟨i, j, eq, hg'⟩ := (re.get hg).resolve_left fun e => ne (e.trans hg.symm)
      cases eq
      exact ⟨hr, i, j, hg, hg'⟩
    · have le := Nat.le_of_not_lt hx
      rw [get_eq_error_of_le le, get_eq_error_of_le (re.size_eq.trans_le le), re.size_eq] at ne
      exact absurd rfl ne
  · have sp := (Sprouted.refl h slot).substitute (below_self h slot) e
    exact ⟨sp.size_le, fun x hx ne => ((sp.old x hx).resolve_left ne).1⟩
  · obtain ⟨redex, n, rfl, -, os, ec⟩ := onSpine_of_step e
    exact ⟨contract_frame os ec, spineKept_of_contract os ec⟩
  · obtain ⟨t, S, tr, new, kp⟩ := exists_tree_of_read eg er
    rw [← kp.get_eq hx (Finset.notMem_empty x)]
    exact TreeAt.get_of_stepTimes (r := .start r.graph.heap) tr new kp.size_le e x hx

/-- The term `(((λ (0 0)) 7) 9)`, where both variables of the body are in one slot. -/
def sharedVariables : Heap :=
  ⟨#[.idx 0, .app 0 0, .lam 1, .idx 7, .app 2 3, .idx 9, .app 4 5]⟩

/-- A slot that is written more than once is below the redex all the same; and two steps from a
source leave its named tree alone. -/
theorem step_frame_shared :
    (∃ h', sharedVariables.step 6 = .ok (h', some 4) ∧ h'.get 0 = .ok (.idx 6) ∧
      (∀ x < 7, h'.get x ≠ sharedVariables.get x → sharedVariables.Reaches 4 x ∧
        (x = 4 ∨ ∃ i, sharedVariables.get x = .ok (.idx i))) ∧
      SpineKept sharedVariables h' 6 4) ∧
    ∃ named r run, Graph.read "(λx.(x x) λy.(y z))" = .ok named ∧
      Resolved.read "(λx.(x x) λy.(y z))" = .ok r ∧
      Run.stepTimes r.graph.root 2 (.start r.graph.heap) = .ok run ∧ run.steps = 2 ∧
      ∀ x < named.heap.size, run.heap.get x = named.heap.get x := by
  obtain ⟨-, -, -, frame, source⟩ := step_frame
  constructor
  · have run : (sharedVariables.step 6).map (fun r => (r.1.get 0, r.2)) =
        .ok (.ok (.idx 6), some 4) := by decide +kernel
    obtain ⟨⟨h', found⟩, e, eq⟩ := map_eq_ok_iff.1 run
    obtain ⟨h0, rfl⟩ := Prod.mk.inj eq
    obtain ⟨⟨-, changes⟩, spine⟩ := frame _ _ _ _ e
    exact ⟨h', e, h0, changes, spine⟩
  · let t : Term :=
      .app (.abs "x" (.app (.var "x") (.var "x"))) (.abs "y" (.app (.var "y") (.var "z")))
    have e : Term.parse "(λx.(x x) λy.(y z))" = .ok t :=
      Term.parse_text (show t.AllLexable from by decide +kernel)
    obtain ⟨r, run, eg, er, erun, es⟩ := exists_run_of_parse (n := 2) (k := 2) e (by decide +kernel)
    exact ⟨_, r, run, eg, er, erun, es, source _ _ r eg er 2 run erun⟩

end WeakHead.Heap

import WeakHead.Heap.Contraction
import WeakHead.Proofs.Heap.Substitution

/-!
# A head step in place

On a tree, a step in the heap is a head step of the term. The passes of a contraction work on the
trees of the argument and of the body, which are apart; the spine above the redex keeps its slots,
and the reduced term grows into its place. The abstraction, the argument as it was raised, the first
slot of the body and the slots in which copies were built are left behind.

Main statement: `step_refines_headStep`.
-/

namespace WeakHead.Heap

/-! ### The redex on the spine -/

lemma headRedexWithin_lam {h : Heap} {slot fn arg body} (hg : h.get slot = .ok (.app fn arg))
    (hf : h.get fn = .ok (.lam body)) (depth) :
    h.headRedexWithin (depth + 1) slot = .ok (some ⟨slot, body, arg⟩) := by
  simp only [headRedexWithin, hg]
  show (h.get fn >>= _) = _
  rw [hf]
  rfl

lemma headRedexWithin_app {h : Heap} {slot fn arg node} (hg : h.get slot = .ok (.app fn arg))
    (hf : h.get fn = .ok node) (hn : ∀ body, node ≠ .lam body) (depth) :
    h.headRedexWithin (depth + 1) slot = h.headRedexWithin depth fn := by
  simp only [headRedexWithin, hg]
  show (h.get fn >>= _) = _
  rw [hf]
  cases node with
  | lam body => exact absurd rfl (hn body)
  | _ => rfl

lemma headRedexWithin_idx {h : Heap} {slot index} (hg : h.get slot = .ok (.idx index)) (depth) :
    h.headRedexWithin (depth + 1) slot = .ok none := by
  rw [headRedexWithin, hg]
  rfl

lemma headRedexWithin_abs {h : Heap} {slot body} (hg : h.get slot = .ok (.lam body)) (depth) :
    h.headRedexWithin (depth + 1) slot = .ok none := by
  rw [headRedexWithin, hg]
  rfl

/-- A slot that stands for something else than an abstraction holds another node. -/
lemma Unfolds.exists_node_ne_lam {h : Heap} {slot t} (un : h.Unfolds slot t)
    (hn : ∀ body, t ≠ .lam body) :
    ∃ node, h.get slot = .ok node ∧ ∀ body, node ≠ .lam body := by
  cases un with
  | idx hg => exact ⟨_, hg, nofun⟩
  | lam _ _ => exact absurd rfl (hn _)
  | app hg _ _ => exact ⟨_, hg, nofun⟩

/-- A term without a head step has no redex on its spine. -/
lemma Unfolds.headRedexWithin_none {h : Heap} {slot t} (un : h.Unfolds slot t) {depth}
    (hd : t.height ≤ depth) (e : t.headStep? = none) :
    h.headRedexWithin depth slot = .ok none := by
  obtain ⟨depth, rfl⟩ := IndexTerm.depth_eq_succ hd
  induction t generalizing slot depth with
  | idx index =>
    cases un with
    | idx hg => exact headRedexWithin_idx hg depth
  | lam body _ =>
    cases un with
    | lam hg _ => exact headRedexWithin_abs hg depth
  | app fn arg ih _ =>
    cases un with
    | app hg unf _ =>
      have hn : ∀ body, fn ≠ .lam body := by
        rintro body rfl
        cases e
      have ef : fn.headStep? = none := by
        rw [IndexTerm.headStep?, Option.map_eq_none_iff] at e
        · exact e
        · exact hn
      have hd := le_of_max_le_left (Nat.le_of_succ_le_succ hd)
      obtain ⟨depth, rfl⟩ := IndexTerm.depth_eq_succ hd
      obtain ⟨node, hf, hne⟩ := unf.exists_node_ne_lam hn
      rw [headRedexWithin_app hg hf hne]
      exact ih unf ef depth hd

/-! ### The passes of a contraction -/

/-- The four passes of a contraction. -/
lemma contract_eq (h : Heap) (redex : Redex) :
    h.contract redex =
      (h.shift redex.arg 0 1).bind fun h =>
        (h.substitute redex.body redex.arg 0).bind fun h =>
          (h.shift redex.body 0 (-1)).bind fun h => h.copyOver redex.slot redex.body := by
  rfl

section Passes

variable {h h₁ h₂ : Heap} {redex : Redex} {body arg : IndexTerm} {B A : Finset Slot}

/-- Raising the argument leaves the tree of the body alone. -/
lemma TreeAt.after_raise (trB : h.TreeAt redex.body body B) (trA : h.TreeAt redex.arg arg A)
    (dis : Disjoint B A) (e₁ : h.shift redex.arg 0 1 = .ok h₁) :
    h₁.TreeAt redex.body body B ∧ h₁.TreeAt redex.arg (arg.raise 1 0) A ∧ Keeps h h₁ A ∧
      h₁.size = h.size := by
  have sh := trA.shifted e₁
  have trA' := sh.tree
  rw [show arg.shiftBy 1 0 = arg.raise 1 0 from IndexTerm.shiftBy_natCast 1 0 arg] at trA'
  exact ⟨trB.frame sh.keeps dis, trA', sh.keeps, sh.size_eq⟩

/-- After the first two passes the tree of the body holds the copies. -/
lemma TreeAt.after_copies (trB : h.TreeAt redex.body body B) (trA : h.TreeAt redex.arg arg A)
    (dis : Disjoint B A) (e₁ : h.shift redex.arg 0 1 = .ok h₁)
    (e₂ : h₁.substitute redex.body redex.arg 0 = .ok h₂) :
    ∃ S, h₂.TreeAt redex.body (IndexTerm.putCopies (arg.raise 1 0) 0 0 body) S ∧
      Within S B h.size ∧ Keeps h h₂ (B ∪ A) := by
  obtain ⟨trB₁, trA₁, kp₁, es⟩ := trB.after_raise trA dis e₁
  obtain ⟨⟨S, tr₂, w⟩, kp₂⟩ := trB₁.substituted trA₁ dis e₂
  rw [es] at w
  have kp₁ : Keeps h h₁ (B ∪ A) := kp₁.mono Finset.subset_union_right
  exact ⟨S, tr₂, w, kp₁.trans kp₂ (.of_subset Finset.subset_union_left _)⟩

/-- A redex can be contracted exactly if the passes stay in range. -/
lemma TreeAt.exists_contract_iff (hlt : redex.slot < h.size) (trB : h.TreeAt redex.body body B)
    (trA : h.TreeAt redex.arg arg A) (dis : Disjoint B A) :
    (∃ h', h.contract redex = .ok h') ↔ (IndexTerm.app (.lam body) arg).HeadStepFits := by
  rw [IndexTerm.HeadStepFits]
  constructor
  · rintro ⟨h', e⟩
    rw [contract_eq, bind_eq_ok_iff] at e
    obtain ⟨h₁, e₁, e⟩ := e
    obtain ⟨h₂, e₂, e⟩ := bind_eq_ok_iff.1 e
    obtain ⟨h₃, e₃, -⟩ := bind_eq_ok_iff.1 e
    obtain ⟨trB₁, trA₁, -, -⟩ := trB.after_raise trA dis e₁
    obtain ⟨S, tr₂, -, -⟩ := trB.after_copies trA dis e₁ e₂
    exact ⟨trA.exists_shift_iff.1 ⟨h₁, e₁⟩, (trB₁.exists_substitute_iff trA₁ dis).1 ⟨h₂, e₂⟩,
      tr₂.exists_shift_iff.1 ⟨h₃, e₃⟩⟩
  · rintro ⟨fit₁, fit₂, fit₃⟩
    -- Each pass leaves behind the trees that the next one works on.
    obtain ⟨h₁, e₁⟩ := trA.exists_shift_iff.2 fit₁
    obtain ⟨trB₁, trA₁, kp₁, -⟩ := trB.after_raise trA dis e₁
    obtain ⟨h₂, e₂⟩ := (trB₁.exists_substitute_iff trA₁ dis).2 fit₂
    obtain ⟨S, tr₂, -, kp₂⟩ := trB.after_copies trA dis e₁ e₂
    obtain ⟨h₃, e₃⟩ := tr₂.exists_shift_iff.2 fit₃
    have sh := tr₂.shifted e₃
    obtain ⟨node, hg⟩ := sh.tree.exists_node
    have hlt₃ := Nat.lt_of_lt_of_le hlt (kp₂.size_le.trans sh.keeps.size_le)
    refine ⟨h₃.put redex.slot node, ?_⟩
    rw [contract_eq]
    refine bind_eq_ok_iff.2 ⟨h₁, e₁, bind_eq_ok_iff.2 ⟨h₂, e₂, bind_eq_ok_iff.2 ⟨h₃, e₃, ?_⟩⟩⟩
    exact copyOver_eq_ok_iff.2 ⟨node, hg, hlt₃, rfl⟩

/-- After a contraction the slot of the redex holds the reduced body. -/
lemma TreeAt.contracted {h' : Heap} (trB : h.TreeAt redex.body body B)
    (trA : h.TreeAt redex.arg arg A) (dis : Disjoint B A) (hlt : redex.slot < h.size)
    (hn : redex.slot ∉ B) (e : h.contract redex = .ok h') :
    (∃ S, h'.TreeAt redex.slot (IndexTerm.instantiate 0 arg body) S ∧
      Within S (insert redex.slot B) h.size) ∧ Keeps h h' (insert redex.slot (B ∪ A)) := by
  rw [contract_eq, bind_eq_ok_iff] at e
  obtain ⟨h₁, e₁, e⟩ := e
  obtain ⟨h₂, e₂, e⟩ := bind_eq_ok_iff.1 e
  obtain ⟨h₃, e₃, e₄⟩ := bind_eq_ok_iff.1 e
  obtain ⟨S, tr₂, w, kp₂⟩ := trB.after_copies trA dis e₁ e₂
  have sh := tr₂.shifted e₃
  have tr₃ := sh.tree
  rw [IndexTerm.lower_putCopies] at tr₃
  obtain ⟨node, hg, hlt₃, rfl⟩ := copyOver_eq_ok_iff.1 e₄
  refine ⟨⟨_, tr₃.moveRoot hg hlt₃ (w.notMem hlt hn), ?_⟩, ?_⟩
  · have sub := Finset.insert_subset_insert redex.slot (Finset.erase_subset redex.body S)
    exact (Within.of_subset sub h.size).trans (w.insert redex.slot) (Nat.le_refl _)
  · -- The lowering changes the slots where the copies are: slots of the body, or new ones.
    have kp₃ := kp₂.trans sh.keeps (w.trans (.of_subset Finset.subset_union_left _) (Nat.le_refl _))
    refine (kp₃.mono (Finset.subset_insert redex.slot _)).trans (keeps_put h₃ redex.slot node ?_)
      (.refl _ _)
    exact Finset.mem_insert_self _ _

end Passes

/-! ### The step on the whole tree -/

/-- What a head step makes of a heap with a tree. -/
structure HeadReduced (h h' : Heap) (slot : Slot) (t : IndexTerm) (S : Finset Slot) : Prop where
  tree : ∃ S', h'.TreeAt slot t S' ∧ Within S' S h.size
  keeps : Keeps h h' S

/-- A term with a head step has a redex on its spine; it can be contracted exactly if the passes
stay in range, and then the slot of the whole term stands for the term after the step. -/
lemma TreeAt.headRedexWithin_some {h : Heap} {slot t t' S} (tr : h.TreeAt slot t S) {depth}
    (hd : t.height ≤ depth) (e : t.headStep? = some t') :
    ∃ redex, h.headRedexWithin depth slot = .ok (some redex) ∧
      ((∃ h', h.contract redex = .ok h') ↔ t.HeadStepFits) ∧
      ∀ h', h.contract redex = .ok h' → HeadReduced h h' slot t' S := by
  obtain ⟨depth, rfl⟩ := IndexTerm.depth_eq_succ hd
  fun_induction IndexTerm.headStep? t generalizing slot S t' depth with
  | case1 body arg =>
    cases e
    cases tr with
    | @app _ absSlot argSlot _ _ _ A hg trf trA hf hA dis =>
      cases trf with
      | @lam _ bodySlot _ B hgf trB hn =>
        rw [Finset.disjoint_insert_left] at dis
        rw [Finset.mem_insert, not_or] at hf
        have hlt := lt_size_of_get_eq_ok hg
        have redexB : h.TreeAt (Redex.mk slot bodySlot argSlot).body body B := trB
        refine ⟨⟨slot, bodySlot, argSlot⟩, headRedexWithin_lam hg hgf depth,
          redexB.exists_contract_iff hlt trA dis.2, fun h' e => ?_⟩
        obtain ⟨⟨S', tr', w⟩, kp⟩ := redexB.contracted trA dis.2 hlt hf.2 e
        -- The slot of the abstraction is in the old tree, but neither changed nor used any more.
        have subBA : insert slot (B ∪ A) ⊆ insert slot (insert absSlot B ∪ A) :=
          Finset.insert_subset_insert _ (Finset.union_subset_union_left (Finset.subset_insert _ B))
        have subB : insert slot B ⊆ insert slot (insert absSlot B ∪ A) :=
          (Finset.insert_subset_insert _ Finset.subset_union_left).trans subBA
        exact ⟨⟨S', tr', w.trans (.of_subset subB _) (Nat.le_refl _)⟩, kp.mono subBA⟩
  | case2 fn arg hfn ih =>
    obtain ⟨fn', ef, rfl⟩ := Option.map_eq_some_iff.1 e
    cases tr with
    | @app _ fnSlot argSlot _ _ F A hg trf trA hf hA dis =>
      have hd := le_of_max_le_left (Nat.le_of_succ_le_succ hd)
      obtain ⟨depth, rfl⟩ := IndexTerm.depth_eq_succ hd
      obtain ⟨node, hgf, hne⟩ := trf.unfolds.exists_node_ne_lam fun body e => hfn body e
      obtain ⟨redex, er, ex, red⟩ := ih trf ef depth hd
      refine ⟨redex, ?_, ?_, fun h' e => ?_⟩
      · rw [headRedexWithin_app hg hgf hne, er]
      · rw [ex, IndexTerm.HeadStepFits]
        exact hfn
      · obtain ⟨⟨F', trf', w⟩, kp⟩ := red h' e
        have hlt := lt_size_of_get_eq_ok hg
        -- The spine above the redex keeps its slots, and what the function has grown by is new.
        have dis' := w.disjoint dis fun x hx => trA.lt_size hx
        refine ⟨⟨_, .app ?_ trf' (trA.frame kp dis.symm) (w.notMem hlt hf) hA dis', ?_⟩,
          kp.mono (Finset.subset_union_left.trans (Finset.subset_insert slot _))⟩
        · exact kp.get_ok hg hf
        · exact (w.union (.refl A _)).insert slot
  | case3 => cases e

/-- The search for a redex on the spine of a tree comes to an end. -/
lemma TreeAt.headRedex_ok {h : Heap} {root t S} (tr : h.TreeAt root t S) :
    ∃ found, h.headRedex root = .ok found := by
  cases e : t.headStep? with
  | none => exact ⟨none, tr.unfolds.headRedexWithin_none tr.height_le e⟩
  | some t' =>
    obtain ⟨redex, er, -⟩ := tr.headRedexWithin_some tr.height_le e
    exact ⟨some redex, er⟩

/-- There is no redex on the spine of a tree exactly if its term has no head step. -/
lemma TreeAt.headRedex_eq_none_iff {h : Heap} {root t S} (tr : h.TreeAt root t S) :
    h.headRedex root = .ok none ↔ t.headStep? = none := by
  refine ⟨fun er => ?_, tr.unfolds.headRedexWithin_none tr.height_le⟩
  cases e : t.headStep? with
  | none => rfl
  | some t' =>
    obtain ⟨redex, er', -⟩ := tr.headRedexWithin_some tr.height_le e
    cases er.symm.trans er'

/-- What is found is contracted, whatever a contraction is. -/
lemma contract_found_eq (h : Heap) (found : Except Fault (Option Redex))
    (contract : Redex → Except Fault Heap) :
    (do
      match ← found with
      | none => return (h, none)
      | some redex => return (← contract redex, some redex.slot)) =
    found.bind fun
      | none => .ok (h, none)
      | some redex => (contract redex).map fun h' => (h', some redex.slot) := by
  cases found with
  | error fault => rfl
  | ok found =>
    cases found with
    | none => rfl
    | some redex => cases contract redex <;> rfl

lemma step_eq (h : Heap) (root) :
    h.step root = (h.headRedex root).bind fun
      | none => .ok (h, none)
      | some redex => (h.contract redex).map fun h' => (h', some redex.slot) :=
  contract_found_eq h (h.headRedex root) h.contract

lemma TreeAt.step_of_none {h : Heap} {root t S} (tr : h.TreeAt root t S)
    (e : t.headStep? = none) : h.step root = .ok (h, none) := by
  rw [step_eq, tr.headRedex_eq_none_iff.2 e]
  rfl

/-- A term with a head step makes it exactly if the passes stay in range. -/
lemma TreeAt.step_of_some {h : Heap} {root t t' S} (tr : h.TreeAt root t S)
    (e : t.headStep? = some t') :
    ((∃ r, h.step root = .ok r) ↔ t.HeadStepFits) ∧
      ∀ r, h.step root = .ok r → ∃ slot, r.2 = some slot ∧ HeadReduced h r.1 root t' S := by
  obtain ⟨redex, er, ex, red⟩ := tr.headRedexWithin_some tr.height_le e
  have es : h.step root = (h.contract redex).map fun h' => (h', some redex.slot) := by
    rw [step_eq, headRedex, er, Except.bind]
  simp only [es, ← ex, map_eq_ok_iff]
  constructor
  · constructor
    · rintro ⟨r, h', ec, -⟩
      exact ⟨h', ec⟩
    · rintro ⟨h', ec⟩
      exact ⟨_, h', ec, rfl⟩
  · rintro r ⟨h', ec, rfl⟩
    exact ⟨redex.slot, rfl, red h' ec⟩

/-- Where a term stands in the heap as a tree, a step in the heap is the head step of the term. The
step succeeds exactly if no raised copy of the argument has an index out of range. It finds nothing
to do, and changes nothing, exactly in weak head normal form. Otherwise the root stands for the term
after its head step, again as a tree. -/
theorem step_refines_headStep {h : Heap} {root : Slot} {t : IndexTerm} (un : h.Unfolds root t)
    (sp : h.SpansTree root) (hs : h.size ≤ indexBound) (hr : t.InRange) :
    ((∃ r, h.step root = .ok r) ↔ t.HeadStepInRange) ∧
      (∀ h', h.step root = .ok (h', none) ↔ h' = h ∧ t.IsWhnf) ∧
      (t.HeadStepInRange → ¬ t.IsWhnf → ∃ t' h' slot, t.headStep? = some t' ∧
        h.step root = .ok (h', some slot) ∧ h'.Unfolds root t' ∧ h'.SpansTree root) := by
  obtain ⟨S, tr⟩ := treeAt_iff.2 ⟨un, sp⟩
  have fits := IndexTerm.headStepFits_iff hr (tr.size_le.trans hs)
  rw [← IndexTerm.headStep_eq_none_iff, ← fits]
  cases e : t.headStep? with
  | none =>
    have es := tr.step_of_none e
    refine ⟨⟨fun _ => IndexTerm.headStepFits_of_none e, fun _ => ⟨_, es⟩⟩, fun h' => ?_, ?_⟩
    · rw [es]
      simp [eq_comm]
    · exact fun _ hn => absurd rfl hn
  | some t' =>
    obtain ⟨ex, red⟩ := tr.step_of_some e
    refine ⟨ex, fun h' => ?_, fun fit _ => ?_⟩
    · simp only [reduceCtorEq, and_false, iff_false]
      intro es
      obtain ⟨slot, eo, -⟩ := red _ es
      cases eo
    · obtain ⟨⟨h', o⟩, es⟩ := ex.2 fit
      obtain ⟨slot, rfl, ⟨S', tr', -⟩, -⟩ := red _ es
      exact ⟨t', h', slot, rfl, es, tr'.unfolds, tr'.spansTree⟩

/-- A step where the argument goes under a binder, in a heap with a node that nothing refers to. -/
theorem step_refines_headStep_under_binder :
    let h : Heap := ⟨#[.idx 1, .lam 0, .idx 0, .app 1 2, .lam 3, .idx 3, .app 4 5, .var "x"]⟩
    let t : IndexTerm := .app (.lam (.app (.lam (.idx 1)) (.idx 0))) (.idx 3)
    h.Unfolds 6 t ∧ h.SpansTree 6 ∧ h.size ≤ indexBound ∧ t.InRange ∧ t.HeadStepInRange ∧
      ¬ t.IsWhnf ∧ ∃ h' slot, h.step 6 = .ok (h', some slot) ∧
        h'.Unfolds 6 (.app (.lam (.idx 4)) (.idx 3)) := by
  intro h t
  have body : h.TreeAt 3 _ _ :=
    .app rfl (.lam rfl (.idx (show h.get 0 = .ok (.idx 1) from rfl)) (by decide)) (.idx rfl)
      (by decide) (by decide) (by decide)
  have tr : h.TreeAt 6 t _ :=
    .app rfl (.lam rfl body (by decide)) (.idx rfl) (by decide) (by decide) (by decide)
  have hs : h.size ≤ indexBound := by decide
  have hr : t.InRange := by
    simp only [t, IndexTerm.inRange_app_iff, IndexTerm.inRange_lam_iff, IndexTerm.inRange_idx_iff]
    decide
  have inr : t.HeadStepInRange := by
    have hb : 5 < indexBound := by decide
    refine ⟨IndexTerm.inRange_idx_iff.2 (by decide), fun n ho => ?_⟩
    have hn : n ≤ 1 := by
      simp only [IndexTerm.occurs_app_iff, IndexTerm.occurs_lam_iff,
        IndexTerm.occurs_idx_iff] at ho
      omega
    refine IndexTerm.inRange_idx_iff.2 (Nat.lt_of_le_of_lt ?_ hb)
    show 3 + (n + 1) ≤ 5
    omega
  have hw : ¬ t.IsWhnf := fun hw => by
    have e := IndexTerm.headStep_eq_none_iff.2 hw
    cases e
  obtain ⟨t', h', slot, e, es, un, -⟩ :=
    (step_refines_headStep tr.unfolds tr.spansTree hs hr).2.2 inr hw
  cases e
  exact ⟨tr.unfolds, tr.spansTree, hs, hr, inr, hw, h', slot, es, un⟩

end WeakHead.Heap

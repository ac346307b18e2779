import WeakHead.Heap.Shift
import WeakHead.Proofs.Heap.Tree

/-!
# Shifting a tree

On a tree every slot is met once, so a shift in place does to the term what `shiftBy` does. It
succeeds exactly if the term is `Shiftable`, changes the slots of the tree only, and appends
nothing. On any heap it changes indices and nothing else.
-/

namespace WeakHead.Heap

lemma shiftWithin_idx {h : Heap} {slot index} (hg : h.get slot = .ok (.idx index))
    (depth cutoff amount) :
    shiftWithin (depth + 1) h slot cutoff amount =
      if cutoff ≤ index then (moveIndex slot index amount).map fun moved => h.put slot (.idx moved)
      else .ok h := by
  rw [shiftWithin, hg]
  rfl

lemma shiftWithin_lam {h : Heap} {slot body} (hg : h.get slot = .ok (.lam body))
    (depth cutoff amount) :
    shiftWithin (depth + 1) h slot cutoff amount =
      (crossBinder cutoff).bind fun cutoff => shiftWithin depth h body cutoff amount := by
  rw [shiftWithin, hg]
  rfl

lemma shiftWithin_app {h : Heap} {slot fn arg} (hg : h.get slot = .ok (.app fn arg))
    (depth cutoff amount) :
    shiftWithin (depth + 1) h slot cutoff amount =
      (shiftWithin depth h fn cutoff amount).bind fun h =>
        shiftWithin depth h arg cutoff amount := by
  rw [shiftWithin, hg]
  rfl

/-- A shift keeps what is kept whenever the index of a variable is changed, if the way down stays
where it is known to be. -/
lemma shiftWithin_keeps {P : Heap → Prop} {I : Slot → Prop} {h h' : Heap} {depth slot cutoff amount}
    (down : ∀ ⦃h x node⦄, P h → I x → h.get x = .ok node → ∀ part ∈ node.parts, I part)
    (write : ∀ ⦃h x i⦄ j, P h → I x → h.get x = .ok (.idx i) → P (h.put x (.idx j)))
    (hP : P h) (hI : I slot) (e : shiftWithin depth h slot cutoff amount = .ok h') : P h' := by
  induction depth generalizing h h' slot cutoff with
  | zero => cases e
  | succ depth ih =>
    cases hg : h.get slot with
    | error fault =>
      rw [shiftWithin, hg] at e
      cases e
    | ok node =>
      have inner := down hP hI hg
      cases node with
      | idx index =>
        rw [shiftWithin_idx hg] at e
        split at e
        · obtain ⟨moved, -, rfl⟩ := map_eq_ok_iff.1 e
          exact write moved hP hI hg
        · cases e
          exact hP
      | lam body =>
        rw [shiftWithin_lam hg] at e
        obtain ⟨cutoff', -, e⟩ := bind_eq_ok_iff.1 e
        exact ih hP (inner body List.mem_cons_self) e
      | app fn arg =>
        rw [shiftWithin_app hg] at e
        obtain ⟨h₁, e₁, e₂⟩ := bind_eq_ok_iff.1 e
        exact ih (ih hP (inner fn List.mem_cons_self) e₁)
          (inner arg (List.mem_cons_of_mem _ List.mem_cons_self)) e₂
      | var name =>
        rw [shiftWithin, hg] at e
        cases e
      | abs binder body =>
        rw [shiftWithin, hg] at e
        cases e

/-- A shift that succeeds has changed indices and nothing else, whatever is shared. -/
lemma reindexed_of_shiftWithin {h h' : Heap} {depth slot cutoff amount}
    (e : shiftWithin depth h slot cutoff amount = .ok h') : Reindexed h h' :=
  shiftWithin_keeps (P := Reindexed h) (I := fun _ => True) (fun _ _ _ _ _ _ _ _ => trivial)
    (fun _ _ _ j re _ hg => re.trans (reindexed_put hg j)) (.refl h) trivial e

lemma reindexed_of_shift {h h' : Heap} {slot cutoff amount}
    (e : h.shift slot cutoff amount = .ok h') : Reindexed h h' :=
  reindexed_of_shiftWithin e

/-- What a shift makes of a heap with a tree. -/
structure Shifted (h h' : Heap) (slot : Slot) (t : IndexTerm) (S : Finset Slot) (cutoff : Nat)
    (amount : Int) : Prop where
  tree : h'.TreeAt slot (t.shiftBy amount cutoff) S
  keeps : Keeps h h' S
  size_eq : h'.size = h.size

/-- A shiftable tree is shifted. -/
lemma TreeAt.shiftWithin_ok {h : Heap} {slot t S} (tr : h.TreeAt slot t S) {depth cutoff amount}
    (hd : t.height ≤ depth) (fit : t.Shiftable amount cutoff) :
    ∃ h', shiftWithin depth h slot cutoff amount = .ok h' ∧
      Shifted h h' slot t S cutoff amount := by
  -- The heap changes between the parts of an application, so the induction is on the term.
  induction t generalizing h slot S depth cutoff with
  | idx index =>
    obtain ⟨depth, rfl⟩ := IndexTerm.depth_eq_succ hd
    cases tr with
    | idx hg =>
      rw [shiftWithin_idx hg]
      by_cases hc : cutoff ≤ index
      · obtain ⟨hle, hlt⟩ := fit hc
        rw [if_pos hc, moveIndex_eq_ok_iff.2 ⟨(Int.toNat_of_nonneg hle).symm, by omega⟩]
        refine ⟨_, rfl, ?_, keeps_put h slot _ (Finset.mem_singleton_self slot), size_put _ _ _⟩
        rw [IndexTerm.shiftBy, if_pos hc]
        exact .idx (get_put_self _ (lt_size_of_get_eq_ok hg))
      · rw [if_neg hc]
        refine ⟨h, rfl, ?_, .refl h _, rfl⟩
        rw [IndexTerm.shiftBy, if_neg hc]
        exact .idx hg
  | lam body ih =>
    obtain ⟨depth, rfl⟩ := IndexTerm.depth_eq_succ hd
    cases tr with
    | lam hg trb hn =>
      obtain ⟨hc, fit⟩ := fit
      obtain ⟨h', e, sh⟩ := ih trb (Nat.le_of_succ_le_succ hd) fit
      refine ⟨h', ?_, ?_, sh.keeps.mono (Finset.subset_insert _ _), sh.size_eq⟩
      · rw [shiftWithin_lam hg, crossBinder_eq_ok_iff.2 ⟨hc, rfl⟩]
        exact e
      · exact .lam (sh.keeps.get_ok hg hn) sh.tree hn
  | app fn arg ihf iha =>
    obtain ⟨depth, rfl⟩ := IndexTerm.depth_eq_succ hd
    have hd := Nat.le_of_succ_le_succ hd
    cases tr with
    | app hg trf tra hf ha dis =>
      obtain ⟨h₁, e₁, sh₁⟩ := ihf trf (le_of_max_le_left hd) fit.1
      obtain ⟨h₂, e₂, sh₂⟩ :=
        iha (tra.frame sh₁.keeps dis.symm) (le_of_max_le_right hd) fit.2
      have hg₂ := sh₂.keeps.get_ok (sh₁.keeps.get_ok hg hf) ha
      refine ⟨h₂, ?_, ?_, ?_, sh₂.size_eq.trans sh₁.size_eq⟩
      · rw [shiftWithin_app hg, e₁]
        exact e₂
      · exact .app hg₂ (sh₁.tree.frame sh₂.keeps dis) sh₂.tree hf ha dis
      · exact (sh₁.keeps.union sh₂.keeps).mono (Finset.subset_insert slot _)

/-- A tree that was shifted was shiftable. -/
lemma TreeAt.shiftable {h h' : Heap} {slot t S} (tr : h.TreeAt slot t S) {depth cutoff amount}
    (hd : t.height ≤ depth) (e : shiftWithin depth h slot cutoff amount = .ok h') :
    t.Shiftable amount cutoff := by
  induction t generalizing h h' slot S depth cutoff with
  | idx index =>
    obtain ⟨depth, rfl⟩ := IndexTerm.depth_eq_succ hd
    cases tr with
    | idx hg =>
      intro hc
      rw [shiftWithin_idx hg, if_pos hc, map_eq_ok_iff] at e
      obtain ⟨moved, em, -⟩ := e
      have hm := moveIndex_eq_ok_iff.1 em
      omega
  | lam body ih =>
    obtain ⟨depth, rfl⟩ := IndexTerm.depth_eq_succ hd
    cases tr with
    | lam hg trb hn =>
      rw [shiftWithin_lam hg, bind_eq_ok_iff] at e
      obtain ⟨inner, ec, e⟩ := e
      obtain ⟨hc, rfl⟩ := crossBinder_eq_ok_iff.1 ec
      exact ⟨hc, ih trb (Nat.le_of_succ_le_succ hd) e⟩
  | app fn arg ihf iha =>
    obtain ⟨depth, rfl⟩ := IndexTerm.depth_eq_succ hd
    have hd := Nat.le_of_succ_le_succ hd
    cases tr with
    | app hg trf tra _ _ dis =>
      rw [shiftWithin_app hg, bind_eq_ok_iff] at e
      obtain ⟨h₁, e₁, e₂⟩ := e
      -- Now that the function is known to be shiftable, its shift leaves the argument alone.
      have fit := ihf trf (le_of_max_le_left hd) e₁
      obtain ⟨_, e₁', sh₁⟩ := trf.shiftWithin_ok (le_of_max_le_left hd) fit
      rw [e₁] at e₁'
      cases e₁'
      exact ⟨fit, iha (tra.frame sh₁.keeps dis.symm) (le_of_max_le_right hd) e₂⟩

/-- A tree can be shifted exactly if it is shiftable. -/
lemma TreeAt.exists_shift_iff {h : Heap} {slot t S} (tr : h.TreeAt slot t S) {cutoff amount} :
    (∃ h', h.shift slot cutoff amount = .ok h') ↔ t.Shiftable amount cutoff := by
  have hd : t.height ≤ h.depthBound + patience :=
    tr.height_le.trans (Nat.le_add_right _ _)
  constructor
  · rintro ⟨h', e⟩
    exact tr.shiftable hd e
  · intro fit
    obtain ⟨h', e, -⟩ := tr.shiftWithin_ok hd fit
    exact ⟨h', e⟩

/-- A shift of a tree that succeeds shifts it. -/
lemma TreeAt.shifted {h h' : Heap} {slot t S} (tr : h.TreeAt slot t S) {cutoff amount}
    (e : h.shift slot cutoff amount = .ok h') : Shifted h h' slot t S cutoff amount := by
  have hd : t.height ≤ h.depthBound + patience :=
    tr.height_le.trans (Nat.le_add_right _ _)
  obtain ⟨_, e', sh⟩ := tr.shiftWithin_ok hd (tr.shiftable hd e)
  cases e.symm.trans e'
  exact sh

end WeakHead.Heap

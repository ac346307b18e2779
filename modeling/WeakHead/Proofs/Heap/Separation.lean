import WeakHead.Proofs.Heap.Frame
import WeakHead.Proofs.Heap.Unsharing

/-!
# Copies are separate

Passes that begin at slots to which one slot leads, one pass after the other, write below that slot
and to new slots, and what they write leads nowhere else (`Confined`). So whatever that slot did not
lead to before the first pass is as it was after the last, and no assumption is needed about the
terms that are substituted: these are only read.

A copy and its original lead to no slot in common, so each can be changed for good without the other
being touched.

Main statement: `copy_is_separate`.
-/

namespace WeakHead.Heap

/-- A shift, a substitution or a step at a slot to which `top` leads. -/
inductive PassUnder (top : Slot) (h h' : Heap) : Prop where
  | shift {x cutoff amount} :
    h.Reaches top x →
    h.shift x cutoff amount = .ok h' →
    PassUnder top h h'
  | substitute {x replacement level} :
    h.Reaches top x →
    h.substitute x replacement level = .ok h' →
    PassUnder top h h'
  | step {x found} :
    h.Reaches top x →
    h.step x = .ok (h', found) →
    PassUnder top h h'

/-- What comes of the heap `h₀` while passes work under `top`. -/
structure Confined (h₀ : Heap) (top : Slot) (h : Heap) : Prop where
  size_le : h₀.size ≤ h.size
  kept : ∀ x < h₀.size, ¬ h₀.Reaches top x → h.get x = h₀.get x
  closed : ∀ ⦃x node⦄, h₀.Below top x → h.get x = .ok node → ∀ part ∈ node.parts, h₀.Below top part

variable {h₀ h h' : Heap} {top slot x : Slot}

namespace Confined

lemma refl (h : Heap) (top : Slot) : Confined h top h where
  size_le := Nat.le_refl _
  kept _ _ _ := rfl
  closed _ _ bl hg := (Sprouted.refl h top).below_part bl hg

/-- Ways down from below stay below. -/
lemma below_of_reaches (cf : Confined h₀ top h) (bl : h₀.Below top slot) (hr : h.Reaches slot x) :
    h₀.Below top x := by
  obtain ⟨p, e⟩ := hr
  exact mem_of_follow cf.closed bl e

/-- Passes below a slot that is below stay confined. -/
lemma sprouted (cf : Confined h₀ top h) (bl : h₀.Below top slot) (sp : Sprouted h slot h') :
    Confined h₀ top h' where
  size_le := cf.size_le.trans sp.size_le
  kept x hx hn := by
    rcases sp.old x (hx.trans_le cf.size_le) with e | ⟨⟨hr, -⟩, -⟩
    · exact e.trans (cf.kept x hx hn)
    · exact absurd ((cf.below_of_reaches bl hr).of_lt hx) hn
  closed x node blx hg part hm := by
    by_cases hx : x < h.size
    · rcases sp.old x hx with e | ⟨-, node', hg', new⟩
      · exact cf.closed blx (e.symm.trans hg) part hm
      · cases hg.symm.trans hg'
        exact .inl (cf.size_le.trans (new part hm))
    · exact .inl (cf.size_le.trans (sp.fresh x node (Nat.le_of_not_lt hx) hg part hm))

/-- A node from below may be put into a slot that is below. -/
lemma put {y node} (cf : Confined h₀ top h) (bl : h₀.Below top x) (bly : h₀.Below top y)
    (hg : h.get y = .ok node) : Confined h₀ top (h.put x node) where
  size_le := cf.size_le.trans_eq (size_put h x node).symm
  kept z hz hn := by
    have ne : z ≠ x := fun e => hn ((e ▸ bl).of_lt hz)
    exact (get_put_of_ne node ne).trans (cf.kept z hz hn)
  closed z node' blz hg' part hm := by
    by_cases ez : z = x
    · subst ez
      have lt := lt_size_of_get_eq_ok hg'
      rw [size_put] at lt
      cases hg'.symm.trans (get_put_self node lt)
      exact cf.closed bly hg part hm
    · rw [get_put_of_ne node ez] at hg'
      exact cf.closed blz hg' part hm

/-- A step below stays confined. -/
lemma step (cf : Confined h₀ top h) (bl : h₀.Below top slot) {found}
    (e : h.step slot = .ok (h', found)) : Confined h₀ top h' := by
  cases found with
  | none =>
    rw [(step_eq_none_iff.1 e).2]
    exact cf
  | some contracted =>
    obtain ⟨redex, n, rfl, -, os, ec⟩ := onSpine_of_step e
    obtain ⟨_, way, -⟩ := spineKept_of_contract os ec
    obtain ⟨fn, hg, hf⟩ := os.get_redex
    have blr := cf.below_of_reaches bl ⟨_, way⟩
    have blf := cf.closed blr hg fn List.mem_cons_self
    have blb := cf.closed blf hf redex.body List.mem_cons_self
    obtain ⟨h₁, h₂, h₃, node, e₁, e₂, e₃, hb, rfl⟩ := exists_passes ec
    exact (cf.sprouted blr (os.sprouted e₁ e₂ e₃)).put blr blb hb

/-- A pass stays confined. -/
lemma pass (cf : Confined h₀ top h) (ps : PassUnder top h h') : Confined h₀ top h' := by
  have below : ∀ {x}, h.Reaches top x → h₀.Below top x :=
    fun hr => cf.below_of_reaches (below_self h₀ top) hr
  cases ps with
  | @shift x _ _ hr e => exact cf.sprouted (below hr) ((Sprouted.refl h x).shift (below_self h x) e)
  | @substitute x _ _ hr e =>
    exact cf.sprouted (below hr) ((Sprouted.refl h x).substitute (below_self h x) e)
  | step hr e => exact cf.step (below hr) e

/-- However many passes are made, they stay confined. -/
lemma run (passes : Relation.ReflTransGen (PassUnder top) h h') : Confined h top h' := by
  induction passes with
  | refl => exact .refl h top
  | tail _ ps ih => exact ih.pass ps

end Confined

/-- Passes leave the slots alone that they had no way to before the first. -/
lemma get_of_passes (passes : Relation.ReflTransGen (PassUnder top) h h') (hx : x < h.size)
    (hn : ¬ h.Reaches top x) : h'.get x = h.get x :=
  (Confined.run passes).kept x hx hn

/-- New nodes give no new ways from a slot below which nothing dangles. -/
lemma Reaches.of_keeps (inside : ∀ x, h.Reaches slot x →
      ∃ node, h.get x = .ok node ∧ ∀ part ∈ node.parts, part < h.size)
    (hs : slot < h.size) (kp : Keeps h h' ∅) (hr : h'.Reaches slot x) : h.Reaches slot x := by
  obtain ⟨path, e⟩ := hr
  refine mem_of_follow (C := h.Reaches slot) (fun y node hy hg' part hm => ?_) (reaches_self hs) e
  obtain ⟨node', hg, hp⟩ := inside y hy
  cases hg'.symm.trans (kp.get_ok hg (Finset.notMem_empty y))
  obtain ⟨i, ei⟩ := exists_follow_part hg hm (hp part hm)
  exact hy.trans ⟨[i], ei⟩

/-- What is in range and without cycles can be copied, whatever kinds its nodes are of and however
much is shared. The copy has one new node for each path, in postorder, none of them reached twice,
and stands for the same term. It is separate from the original: no sequence of shifts, substitutions
and steps under the copy changes a slot that was there before, and none under the original changes
one of the copy. What is substituted may be any term. -/
theorem copy_is_separate (hs : slot < h.size)
    (inside : ∀ x, h.Reaches slot x →
      ∃ node, h.get x = .ok node ∧ ∀ part ∈ node.parts, part < h.size)
    (acyclic : ∀ x, h.Reaches slot x → ∀ path, h.follow x path = some x → path = []) :
    ∃ h' copied, h.copy slot = .ok (h', copied) ∧ h.Unrolls slot h' copied ∧
      (∃ n, h.sizeFrom slot = .ok n ∧ h'.size = h.size + n) ∧
      (h.SameTerm h' slot copied ∧ (∀ t, h.Unfolds slot t ↔ h'.Unfolds copied t) ∧
        ∀ t, h.UnfoldsNamed slot t ↔ h'.UnfoldsNamed copied t) ∧
      (∀ h'', Relation.ReflTransGen (PassUnder copied) h' h'' →
        ∀ x < h.size, h''.get x = h.get x) ∧
      ∀ h'', Relation.ReflTransGen (PassUnder slot) h' h'' →
        ∀ x < h'.size, h.size ≤ x → h''.get x = h'.get x := by
  have en := (endsWithin_of_acyclic inside acyclic hs).mono (Nat.le_succ h.size)
  obtain ⟨h', copied, n, e, es, us⟩ := en.copyWithin_ok (.refl h ∅)
  have ur := us.unrolls
  have kp := us.copied.trees.keeps
  refine ⟨h', copied, e, ur, ⟨n, es, us.size_eq⟩, ⟨us.same, fun t => ?_, fun t => ?_⟩,
    fun h'' passes x hx => ?_, fun h'' passes x hx new => ?_⟩
  · exact ⟨us.same.unfolds, us.same.symm.unfolds⟩
  · exact ⟨us.same.unfoldsNamed, us.same.symm.unfoldsNamed⟩
  · rw [← ur.keeps x hx]
    refine get_of_passes passes (hx.trans_le kp.size_le) ?_
    rintro ⟨path, e⟩
    exact absurd hx (Nat.not_lt.2 (ur.fresh path x e))
  · refine get_of_passes passes hx fun hr => ?_
    exact absurd (hr.of_keeps inside hs kp).lt_size (Nat.not_lt.2 new)

/-- The redex `((λ 3) 3)` with one slot for both variables, applied to a variable with a name. -/
def sharedInRedex : Heap :=
  ⟨#[.idx 3, .lam 0, .app 1 0, .var "y", .app 2 3]⟩

/-- The redex is contracted in the copy, which has a slot for each variable. -/
theorem copy_is_separate_redex :
    ∃ h' h'', sharedInRedex.copy 4 = .ok (h', 10) ∧ sharedInRedex.Unrolls 4 h' 10 ∧
      h'.step 10 = .ok (h'', some 8) ∧ ∀ x < 5, h''.get x = sharedInRedex.get x := by
  have parts_lt := parts_lt_of_nodes (h := sharedInRedex) (by decide)
  have inside (x : Nat) (hr : sharedInRedex.Reaches 4 x) : ∃ node, sharedInRedex.get x = .ok node ∧
      ∀ part ∈ node.parts, part < sharedInRedex.size := by
    obtain ⟨node, hg⟩ := exists_get_of_lt hr.lt_size
    exact ⟨node, hg, fun part hm => (parts_lt x node hg part hm).trans hr.lt_size⟩
  obtain ⟨h', copied, e, ur, -, -, separate, -⟩ :=
    copy_is_separate (by decide) inside fun x _ => acyclic_of_parts_lt parts_lt x
  have run : ((sharedInRedex.copy 4).bind fun c => (c.1.step c.2).map fun s => (c.2, s.2)) =
      .ok (10, some 8) := by decide +kernel
  rw [e, bind_ok, map_eq_ok_iff] at run
  obtain ⟨⟨h'', found⟩, es, eq⟩ := run
  obtain ⟨rfl, rfl⟩ := Prod.mk.inj eq
  have reached : h'.Reaches 10 10 := reaches_self (Nat.lt_of_succ_le ur.root_last.le)
  exact ⟨h', h'', e, ur, es, separate h'' (.single (.step reached es))⟩

end WeakHead.Heap

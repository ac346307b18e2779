import WeakHead.Proofs.Heap.Alike.Shift

/-!
# Substitution in heaps that look alike

A substitution appends copies and shifts them, in related slots on both sides and at the same time.
Where nodes are shared the walk may come to a slot with a copy and go on into it. New slots span
trees, so there it goes no deeper than the copy is high; on its way through old nodes it goes no
deeper than the old term. So no walk is cut short on either side, and both do the same.
-/

namespace WeakHead.Heap

lemma substituteWithin_succ (replacement depth h slot level crossed) :
    substituteWithin replacement (depth + 1) h slot level crossed =
      substituteAt replacement (substituteWithin replacement depth) h slot level crossed := by
  rw [substituteWithin]

lemma substituteAmongOld_of_not_lt {slot old : Slot} (hn : ¬ slot < old)
    (replacement depth h level crossed) :
    substituteAmongOld replacement old (depth + 1) h slot level crossed =
      substituteWithin replacement h.depthBound h slot level crossed := by
  rw [substituteAmongOld, if_neg hn]

/-- Two heaps that look alike in the middle of a substitution that began with `h₀` on one side and
with `old` slots on the other. -/
structure Paired (R : Slot → Slot → Prop) (h₀ : Heap) (old : Nat) (h h' : Heap) : Prop where
  alike : Alike R h h'
  grown : Grown h₀ h
  lt_iff : ∀ ⦃x y⦄, R x y → (x < h₀.size ↔ y < old)
  old_le : old ≤ h'.size

variable {R : Slot → Slot → Prop} {h₀ h h' : Heap} {old : Nat} {x y replacement replacement' : Slot}
  {t u : IndexTerm} {depth depth' : Nat}

/-- The heaps have become a pair in which more slots are related. -/
def Continues (R : Slot → Slot → Prop) (h₀ : Heap) (old : Nat) (h h' : Heap) : Prop :=
  ∃ R', (∀ x y, R x y → R' x y) ∧ Paired R' h₀ old h h'

lemma Continues.of_sub {R₁} (ct : Continues R₁ h₀ old h h') (sub : ∀ x y, R x y → R₁ x y) :
    Continues R h₀ old h h' := by
  obtain ⟨R₂, sub', pa⟩ := ct
  exact ⟨R₂, fun x y r => sub' x y (sub x y r), pa⟩

/-! ### One occurrence -/

lemma Alike.replaceByCopy (al : Alike R h h') (r : R x y) (rr : R replacement replacement')
    (un : h.Unfolds replacement u) (crossed) :
    Agree (Alike fun x y => R x y ∨ Among h.size h'.size u.size x y)
      (h.replaceByCopy x replacement crossed) (h'.replaceByCopy y replacement' crossed) := by
  have un' := al.unfolds un rr
  obtain ⟨h₁, copied, e, bt⟩ := un.copyWithin_ok un.height_le
  obtain ⟨h₁', copied', e', bt'⟩ := un'.copyWithin_ok un'.height_le
  have al₁ := al.built bt bt'
  have rc : R copied copied' ∨ Among h.size h'.size u.size copied copied' :=
    .inr (bt.post.among_root bt'.post)
  rw [replaceByCopy_eq, replaceByCopy_eq, copy, e, copy, e']
  have raised : Agree (Alike fun x y => R x y ∨ Among h.size h'.size u.size x y)
      (if crossed = 0 then .ok h₁ else h₁.shift copied 0 crossed)
      (if crossed = 0 then .ok h₁' else h₁'.shift copied' 0 crossed) := by
    split
    · exact .ok al₁
    · exact (al₁.shift rc bt.tree.unfolds 0 crossed).imp fun _ _ => And.left
  refine raised.bind fun h₂ h₂' al₂ => ?_
  obtain ⟨node, node', hg, hg', na⟩ := al₂.exists_nodes rc
  obtain ⟨hx, hy⟩ := al₂.lt_size (.inl r)
  rw [copyOver_eq_ok_iff.2 ⟨node, hg, hx, rfl⟩, copyOver_eq_ok_iff.2 ⟨node', hg', hy, rfl⟩]
  exact .ok (al₂.put (.inl r) na)

/-- Such copies leave a pair a pair. -/
lemma Paired.replaceByCopy (pa : Paired R h₀ old h h') (r : R x y)
    (rr : R replacement replacement') (un : h₀.Unfolds replacement u) {index}
    (hg : h.get x = .ok (.idx index)) (crossed) :
    Agree (fun h₁ h₁' => Continues R h₀ old h₁ h₁' ∧ Keeps h h₁ {x})
      (h.replaceByCopy x replacement crossed) (h'.replaceByCopy y replacement' crossed) := by
  obtain ⟨v, un⟩ := pa.grown.develops.exists_unfolds un
  have hg' := pa.alike.get_idx r hg
  refine (pa.alike.replaceByCopy r rr un crossed).with_eq.imp fun h₁ h₁' ⟨e, e', al⟩ => ?_
  have gf := un.grafted hg e
  have gf' := (pa.alike.unfolds un rr).grafted hg' e'
  refine ⟨⟨_, fun x y => .inl, al, pa.grown.graft gf, fun x y r => ?_,
    pa.old_le.trans gf'.keeps.size_le⟩, gf.keeps⟩
  rcases r with r | ⟨k, -, rfl, rfl⟩
  · exact pa.lt_iff r
  · exact iff_of_false (Nat.not_lt.2 (pa.grown.size_le.trans (Nat.le_add_right _ k)))
      (Nat.not_lt.2 (pa.old_le.trans (Nat.le_add_right _ k)))

/-! ### New nodes -/

/-- Walks over related trees agree, and leave a pair a pair. -/
lemma Paired.substituteWithin {S : Finset Slot} (pa : Paired R h₀ old h h') (r : R x y)
    (rr : R replacement replacement') (un : h₀.Unfolds replacement u) (tr : h.TreeAt x t S)
    (hd : t.height ≤ depth) (hd' : t.height ≤ depth') (level crossed) :
    Agree (fun h₁ h₁' => Continues R h₀ old h₁ h₁' ∧ Keeps h h₁ S)
      (substituteWithin replacement depth h x level crossed)
      (substituteWithin replacement' depth' h' y level crossed) := by
  induction t generalizing R h h' x y S depth depth' level crossed with
  | idx index =>
    obtain ⟨depth, rfl⟩ := IndexTerm.depth_eq_succ hd
    obtain ⟨depth', rfl⟩ := IndexTerm.depth_eq_succ hd'
    cases tr with
    | idx hg =>
      have hg' := pa.alike.get_idx r hg
      rw [substituteWithin_succ, substituteWithin_succ, substituteAt_idx hg, substituteAt_idx hg']
      split
      · exact pa.replaceByCopy r rr un hg crossed
      · exact .ok ⟨⟨R, fun x y => id, pa⟩, .refl h _⟩
  | lam body ih =>
    obtain ⟨depth, rfl⟩ := IndexTerm.depth_eq_succ hd
    obtain ⟨depth', rfl⟩ := IndexTerm.depth_eq_succ hd'
    cases tr with
    | lam hg trb hn =>
      obtain ⟨_, hg', rb⟩ := pa.alike.get_lam r hg
      rw [substituteWithin_succ, substituteWithin_succ, substituteAt_lam hg, substituteAt_lam hg']
      refine (agree_crossBinder level).bind fun level level' e => ?_
      cases e
      exact (ih pa rb rr trb (Nat.le_of_succ_le_succ hd) (Nat.le_of_succ_le_succ hd') level
        (crossed + 1)).imp fun _ _ ⟨ct, kp⟩ => ⟨ct, kp.mono (Finset.subset_insert _ _)⟩
  | app fn arg ihf iha =>
    obtain ⟨depth, rfl⟩ := IndexTerm.depth_eq_succ hd
    obtain ⟨depth', rfl⟩ := IndexTerm.depth_eq_succ hd'
    have hd := Nat.le_of_succ_le_succ hd
    have hd' := Nat.le_of_succ_le_succ hd'
    cases tr with
    | app hg trf tra hf ha dis =>
      obtain ⟨_, _, hg', rf, ra⟩ := pa.alike.get_app r hg
      rw [substituteWithin_succ, substituteWithin_succ, substituteAt_app hg, substituteAt_app hg']
      refine (ihf pa rf rr trf (le_of_max_le_left hd) (le_of_max_le_left hd') level crossed).bind ?_
      rintro h₁ h₁' ⟨⟨R₁, sub, pa₁⟩, kp⟩
      refine (iha pa₁ (sub _ _ ra) (sub _ _ rr) (tra.frame kp dis.symm) (le_of_max_le_right hd)
        (le_of_max_le_right hd') level crossed).imp ?_
      rintro h₂ h₂' ⟨ct, kp'⟩
      exact ⟨ct.of_sub sub, (kp.union kp').mono (Finset.subset_insert _ _)⟩

/-- New slots span trees, so a walk that enters them is deep enough on both sides. -/
lemma Paired.substituteFresh (pa : Paired R h₀ old h h') (r : R x y)
    (rr : R replacement replacement') (un : h₀.Unfolds replacement u) (hx : h₀.size ≤ x)
    (level crossed) :
    Agree (Continues R h₀ old)
      (substituteAmongOld replacement h₀.size (depth + 1) h x level crossed)
      (substituteAmongOld replacement' old (depth' + 1) h' y level crossed) := by
  have hn : ¬ x < h₀.size := Nat.not_lt.2 hx
  rw [substituteAmongOld_of_not_lt hn,
    substituteAmongOld_of_not_lt fun hy => hn ((pa.lt_iff r).2 hy)]
  obtain ⟨t, S, tr, -⟩ := pa.grown.fresh x hx (pa.alike.lt_size r).1
  have un' := pa.alike.unfolds tr.unfolds r
  exact (pa.substituteWithin r rr un tr tr.height_le un'.height_le level crossed).imp
    fun _ _ => And.left

/-! ### Old nodes -/

/-- A slot that held a variable when the walk began holds it still, or it holds a copy by now and
the walk goes on into that. -/
lemma Paired.substituteAtLeaf (pa : Paired R h₀ old h h') (r : R x y)
    (rr : R replacement replacement') (un : h₀.Unfolds replacement u) {index}
    (hg₀ : h₀.get x = .ok (.idx index)) (level crossed) :
    Agree (Continues R h₀ old)
      (substituteAt replacement (substituteAmongOld replacement h₀.size (depth + 1)) h x level
        crossed)
      (substituteAt replacement' (substituteAmongOld replacement' old (depth' + 1)) h' y level
        crossed) := by
  obtain ⟨node, hg, new⟩ := pa.grown.leaf hg₀
  obtain ⟨v, unx⟩ := pa.grown.develops.exists_unfolds (.idx hg₀)
  cases unx with
  | idx hgx =>
    have hg' := pa.alike.get_idx r hgx
    rw [substituteAt_idx hgx, substituteAt_idx hg']
    split
    · exact (pa.replaceByCopy r rr un hgx crossed).imp fun _ _ => And.left
    · exact .ok ⟨R, fun x y => id, pa⟩
  | lam hgx _ =>
    cases hg.symm.trans hgx
    obtain ⟨_, hg', rb⟩ := pa.alike.get_lam r hgx
    rw [substituteAt_lam hgx, substituteAt_lam hg']
    refine (agree_crossBinder level).bind fun level level' e => ?_
    cases e
    exact pa.substituteFresh rb rr un (new _ List.mem_cons_self) level (crossed + 1)
  | app hgx _ _ =>
    cases hg.symm.trans hgx
    obtain ⟨_, _, hg', rf, ra⟩ := pa.alike.get_app r hgx
    rw [substituteAt_app hgx, substituteAt_app hg']
    refine (pa.substituteFresh rf rr un (new _ List.mem_cons_self) level crossed).bind ?_
    rintro h₁ h₁' ⟨R₁, sub, pa₁⟩
    exact (pa₁.substituteFresh (sub _ _ ra) (sub _ _ rr) un
      (new _ (List.mem_cons_of_mem _ List.mem_cons_self)) level crossed).imp
      fun _ _ ct => ct.of_sub sub

/-- Walks among old slots agree, and leave a pair a pair. -/
lemma Paired.substituteAmongOld (pa : Paired R h₀ old h h') (r : R x y)
    (rr : R replacement replacement') (un : h₀.Unfolds replacement u) (unx : h₀.Unfolds x t)
    (hd : t.height < depth) (hd' : t.height < depth') (level crossed) :
    Agree (Continues R h₀ old) (substituteAmongOld replacement h₀.size depth h x level crossed)
      (substituteAmongOld replacement' old depth' h' y level crossed) := by
  -- The induction is on what the slot stood for before the substitution, whatever it holds by now.
  induction t generalizing R h h' x y depth depth' level crossed with
  | idx index =>
    obtain ⟨depth, rfl⟩ : ∃ d, depth = d + 1 + 1 := Nat.exists_eq_add_of_le' hd
    obtain ⟨depth', rfl⟩ : ∃ d, depth' = d + 1 + 1 := Nat.exists_eq_add_of_le' hd'
    rw [substituteAmongOld_of_lt unx.lt_size,
      substituteAmongOld_of_lt ((pa.lt_iff r).1 unx.lt_size)]
    cases unx with
    | idx hg => exact pa.substituteAtLeaf r rr un hg level crossed
  | lam body ih =>
    obtain ⟨depth, rfl⟩ := Nat.exists_eq_add_one.2 (Nat.zero_lt_of_lt hd)
    obtain ⟨depth', rfl⟩ := Nat.exists_eq_add_one.2 (Nat.zero_lt_of_lt hd')
    rw [substituteAmongOld_of_lt unx.lt_size,
      substituteAmongOld_of_lt ((pa.lt_iff r).1 unx.lt_size)]
    cases unx with
    | lam hg unb =>
      have hg := pa.grown.develops.get_lam hg
      obtain ⟨_, hg', rb⟩ := pa.alike.get_lam r hg
      rw [substituteAt_lam hg, substituteAt_lam hg']
      refine (agree_crossBinder level).bind fun level level' e => ?_
      cases e
      exact ih pa rb rr unb (Nat.lt_of_succ_lt_succ hd) (Nat.lt_of_succ_lt_succ hd') level
        (crossed + 1)
  | app fn arg ihf iha =>
    obtain ⟨depth, rfl⟩ := Nat.exists_eq_add_one.2 (Nat.zero_lt_of_lt hd)
    obtain ⟨depth', rfl⟩ := Nat.exists_eq_add_one.2 (Nat.zero_lt_of_lt hd')
    obtain ⟨hdf, hda⟩ := max_lt_iff.1 (Nat.lt_of_succ_lt_succ hd)
    obtain ⟨hdf', hda'⟩ := max_lt_iff.1 (Nat.lt_of_succ_lt_succ hd')
    rw [substituteAmongOld_of_lt unx.lt_size,
      substituteAmongOld_of_lt ((pa.lt_iff r).1 unx.lt_size)]
    cases unx with
    | app hg unf una =>
      have hg := pa.grown.develops.get_app hg
      obtain ⟨_, _, hg', rf, ra⟩ := pa.alike.get_app r hg
      rw [substituteAt_app hg, substituteAt_app hg']
      refine (ihf pa rf rr unf hdf hdf' level crossed).bind ?_
      rintro h₁ h₁' ⟨R₁, sub, pa₁⟩
      exact (iha pa₁ (sub _ _ ra) (sub _ _ rr) una hda hda' level crossed).imp
        fun _ _ ct => ct.of_sub sub

/-- Substitutions at related slots agree, and leave heaps that look alike. -/
lemma Alike.substitute (al : Alike R h h') (r : R x y) (rr : R replacement replacement')
    (un : h.Unfolds replacement u) (unx : h.Unfolds x t) (level) :
    Agree (fun h₁ h₁' => ∃ R', (∀ x y, R x y → R' x y) ∧ Alike R' h₁ h₁' ∧ Develops h h₁)
      (h.substitute x replacement level) (h'.substitute y replacement' level) := by
  have pa : Paired R h h'.size h h' := ⟨al, .refl h, fun x y r =>
    iff_of_true (al.lt_size r).1 (al.lt_size r).2, Nat.le_refl _⟩
  have deep : ∀ n : Nat, n < n + patience := fun n => Nat.lt_add_of_pos_right (by decide)
  exact (pa.substituteAmongOld r rr un unx (lt_of_le_of_lt unx.height_le (deep _))
    (lt_of_le_of_lt (al.unfolds unx r).height_le (deep _)) level 0).imp
    fun h₁ h₁' ⟨R', sub, pa'⟩ => ⟨R', sub, pa'.alike, pa'.grown.develops⟩

end WeakHead.Heap

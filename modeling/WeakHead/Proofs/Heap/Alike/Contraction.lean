import WeakHead.Proofs.Heap.Alike.Substitution
import WeakHead.Proofs.Heap.Contraction

/-!
# Steps in heaps that look alike

The search for a redex follows related slots down the spine, and the passes of a contraction are
shifts and a substitution. Then the slot of the redex gets the node of the reduced body. Whatever
stood for a term before still does: a body is smaller than the redex that it was in, so nothing
becomes part of itself.
-/

namespace WeakHead

/-- The redexes are in related slots, and so are their bodies and arguments. -/
structure Redex.Alike (R : Slot → Slot → Prop) (redex redex' : Redex) : Prop where
  slot : R redex.slot redex'.slot
  body : R redex.body redex'.body
  arg : R redex.arg redex'.arg

namespace Heap

variable {R : Slot → Slot → Prop} {h h' h'' : Heap} {x y : Slot} {t : IndexTerm}
  {depth depth' : Nat} {redex redex' : Redex}

/-- There is a redex in the heap, and it stands for a term. -/
def IsRedex (h : Heap) (redex : Redex) : Prop :=
  ∃ fn body arg, h.get redex.slot = .ok (.app fn redex.arg) ∧
    h.get fn = .ok (.lam redex.body) ∧ h.Unfolds redex.body body ∧ h.Unfolds redex.arg arg

/-- Searches from related slots find redexes that are alike, or none in both. -/
lemma Alike.headRedexWithin (al : Alike R h h') (r : R x y) (un : h.Unfolds x t)
    (hd : t.height ≤ depth) (hd' : t.height ≤ depth') :
    ∃ found found', h.headRedexWithin depth x = .ok found ∧
      h'.headRedexWithin depth' y = .ok found' ∧ Option.Rel (Redex.Alike R) found found' ∧
      ∀ redex ∈ found, h.IsRedex redex ∧ h.Reaches x redex.slot := by
  obtain ⟨depth, rfl⟩ := IndexTerm.depth_eq_succ hd
  obtain ⟨depth', rfl⟩ := IndexTerm.depth_eq_succ hd'
  induction t generalizing x y depth depth' with
  | idx index =>
    cases un with
    | idx hg =>
      have hg' := al.get_idx r hg
      exact ⟨none, none, headRedexWithin_idx hg depth, headRedexWithin_idx hg' depth', .none,
        nofun⟩
  | lam body _ =>
    cases un with
    | lam hg _ =>
      obtain ⟨_, hg', _⟩ := al.get_lam r hg
      exact ⟨none, none, headRedexWithin_abs hg depth, headRedexWithin_abs hg' depth', .none,
        nofun⟩
  | app fn arg ih _ =>
    cases un with
    | app hg unf una =>
      obtain ⟨_, _, hg', rf, ra⟩ := al.get_app r hg
      have hd := le_of_max_le_left (Nat.le_of_succ_le_succ hd)
      have hd' := le_of_max_le_left (Nat.le_of_succ_le_succ hd')
      obtain ⟨depth, rfl⟩ := IndexTerm.depth_eq_succ hd
      obtain ⟨depth', rfl⟩ := IndexTerm.depth_eq_succ hd'
      obtain ⟨fnNode, hf⟩ := unf.exists_node
      obtain ⟨fnNode', hf', naf⟩ := al.exists_node rf hf
      cases naf with
      | lam rb =>
        cases unf with
        | idx hi => cases hf.symm.trans hi
        | app ha _ _ => cases hf.symm.trans ha
        | lam hl unb =>
          cases hf.symm.trans hl
          refine ⟨_, _, headRedexWithin_lam hg hf _, headRedexWithin_lam hg' hf' _,
            .some ⟨r, rb, ra⟩, fun redex hm => ?_⟩
          cases hm
          exact ⟨⟨_, _, _, hg, hf, unb, una⟩, reaches_self (lt_size_of_get_eq_ok hg)⟩
      | _ =>
        rw [headRedexWithin_app hg hf nofun, headRedexWithin_app hg' hf' nofun]
        obtain ⟨found, found', e, e', rel, rx⟩ := ih rf unf depth hd depth' hd'
        refine ⟨found, found', e, e', rel, fun redex hm => ?_⟩
        obtain ⟨rx, hr⟩ := rx redex hm
        exact ⟨rx, hr.of_part hg (i := 0) rfl⟩

lemma Alike.headRedex (al : Alike R h h') (r : R x y) (un : h.Unfolds x t) :
    ∃ found found', h.headRedex x = .ok found ∧ h'.headRedex y = .ok found' ∧
      Option.Rel (Redex.Alike R) found found' ∧
      ∀ redex ∈ found, h.IsRedex redex ∧ h.Reaches x redex.slot :=
  al.headRedexWithin r un un.height_le (al.unfolds un r).height_le

/-! ### What stands for a term -/

/-- What stood for a term does so again. -/
def Survives (h h' : Heap) : Prop :=
  ∀ ⦃x t⦄, h.Unfolds x t → ∃ u, h'.Unfolds x u

/-- A slot stands for a term if it has the node of one that does, and so do the parts. -/
lemma Unfolds.exists_of_parts {node} (un : h.Unfolds x t) (hg : h.get x = .ok node)
    (hg' : h'.get y = .ok node)
    (sub : ∀ part u, h.Unfolds part u → u.size < t.size → ∃ v, h'.Unfolds part v) :
    ∃ v, h'.Unfolds y v := by
  cases un with
  | idx hi =>
    cases hg.symm.trans hi
    exact ⟨_, .idx hg'⟩
  | lam hl unb =>
    cases hg.symm.trans hl
    obtain ⟨v, unb'⟩ := sub _ _ unb (Nat.lt_succ_self _)
    exact ⟨_, .lam hg' unb'⟩
  | app ha unf una =>
    cases hg.symm.trans ha
    obtain ⟨v, unf'⟩ := sub _ _ unf (by rw [IndexTerm.size]; omega)
    obtain ⟨w, una'⟩ := sub _ _ una (by rw [IndexTerm.size]; omega)
    exact ⟨_, .app hg' unf' una'⟩

/-- A slot can get the node of one that stands for a smaller term. -/
lemma survives_put {source node u v} (un : h.Unfolds x u) (uns : h.Unfolds source v)
    (lt : v.size < u.size) (hg : h.get source = .ok node) : Survives h (h.put x node) := by
  intro y t uny
  -- The induction is on the size: what `x` stood for was greater than what its new parts stand for.
  induction n : t.size using Nat.strong_induction_on generalizing y t with
  | _ n ih =>
    subst n
    by_cases e : y = x
    · subst e
      cases un.unique uny
      exact uns.exists_of_parts hg (get_put_self node un.lt_size) fun part w unp ltp =>
        ih _ (ltp.trans lt) unp rfl
    · obtain ⟨node', hg'⟩ := uny.exists_node
      refine uny.exists_of_parts hg' ?_ fun part w unp ltp => ih _ ltp unp rfl
      rw [get_put_of_ne node e, hg']

/-! ### The passes -/

/-- The parts of a redex stand for terms as long as it does. -/
lemma IsRedex.develops (rx : h.IsRedex redex) (dv : Develops h h') : h'.IsRedex redex := by
  obtain ⟨fn, body, arg, hg, hf, unb, una⟩ := rx
  obtain ⟨body', unb'⟩ := dv.exists_unfolds unb
  obtain ⟨arg', una'⟩ := dv.exists_unfolds una
  exact ⟨fn, body', arg', dv.get_app hg, dv.get_lam hf, unb', una'⟩

lemma IsRedex.survives_put (rx : h.IsRedex redex) {node} (hg : h.get redex.body = .ok node) :
    Survives h (h.put redex.slot node) := by
  obtain ⟨fn, body, arg, hx, hf, unb, una⟩ := rx
  refine Heap.survives_put (.app hx (.lam hf unb) una) unb ?_ hg
  rw [IndexTerm.size, IndexTerm.size]
  omega

lemma Alike.contract (al : Alike R h h') (ra : redex.Alike R redex') (rx : h.IsRedex redex) :
    Agree (fun h₁ h₁' => ∃ R', (∀ x y, R x y → R' x y) ∧ Alike R' h₁ h₁' ∧ Survives h h₁)
      (h.contract redex) (h'.contract redex') := by
  rw [contract_eq, contract_eq]
  have ⟨_, _, _, _, _, _, una⟩ := rx
  refine (al.shift ra.arg una 0 1).bind fun h₁ h₁' ⟨al₁, re₁⟩ => ?_
  -- The redex stays one from pass to pass, though what its parts stand for may change.
  have dv₁ := re₁.develops
  have ⟨_, _, _, _, _, unb, una⟩ := rx.develops dv₁
  refine (al₁.substitute ra.body ra.arg una unb 0).bind ?_
  rintro h₂ h₂' ⟨R', sub, al₂, dv₂⟩
  have ⟨_, _, _, _, _, unb, _⟩ := rx.develops (dv₁.trans dv₂)
  refine (al₂.shift (sub _ _ ra.body) unb 0 (-1)).bind fun h₃ h₃' ⟨al₃, re₃⟩ => ?_
  have dv := (dv₁.trans dv₂).trans re₃.develops
  obtain ⟨node, node', hg, hg', na⟩ := al₃.exists_nodes (sub _ _ ra.body)
  obtain ⟨hx, hy⟩ := al₃.lt_size (sub _ _ ra.slot)
  rw [copyOver_eq_ok_iff.2 ⟨node, hg, hx, rfl⟩, copyOver_eq_ok_iff.2 ⟨node', hg', hy, rfl⟩]
  refine .ok ⟨R', sub, al₃.put (sub _ _ ra.slot) na, fun x t un => ?_⟩
  obtain ⟨u, un⟩ := dv.exists_unfolds un
  exact (rx.develops dv).survives_put hg un

lemma Alike.step (al : Alike R h h') (r : R x y) (un : h.Unfolds x t) :
    Agree (fun r r' => Option.Rel R r.2 r'.2 ∧
        ∃ R', (∀ x y, R x y → R' x y) ∧ Alike R' r.1 r'.1 ∧ Survives h r.1)
      (h.step x) (h'.step y) := by
  obtain ⟨found, found', e, e', rel, rx⟩ := al.headRedex r un
  rw [step_eq, step_eq, e, e', Except.bind, Except.bind]
  cases rel with
  | none => exact .ok ⟨.none, R, fun x y => id, al, fun x t un => ⟨t, un⟩⟩
  | some ra =>
    exact (al.contract ra (rx _ rfl).1).map fun h₁ h₁' after => ⟨.some ra.slot, after⟩

end Heap

end WeakHead

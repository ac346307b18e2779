import WeakHead.Heap.Raising
import WeakHead.Proofs.Heap.Isolation

/-!
# Raising on the way or at the end

Two walks put copies into a term. One counts the binders that it has crossed and raises each copy by
their number; the other raises the replacement itself when it enters a binder, copies it as it
stands, and lowers it again when it leaves. At every point of the two walks the heap of the second
is the heap of the first with the replacement raised by the binders crossed so far (`Raised`), and
no two heaps are that. When the walks are over there is no binder left to be raised over, so the
heaps are the same.

Main statement: `substituteByRaising_eq`.
-/

namespace WeakHead.Heap

variable {h h' h₂ h₃ : Heap} {slot within expr : Slot} {t u : IndexTerm} {S E : Finset Slot}
  {crossed : Nat}

/-! ### A raised replacement -/

/-- The second heap is the first with the tree under `expr` raised over some binders. -/
structure Raised (expr : Slot) (u : IndexTerm) (E : Finset Slot) (crossed : Nat) (h h₂ : Heap) :
    Prop where
  tree : h.TreeAt expr u E
  raised : h₂.TreeAt expr (u.raise crossed 0) E
  reindexed : Reindexed h h₂
  get_eq : ∀ ⦃x⦄, x ∉ E → h₂.get x = h.get x

lemma TreeAt.raised_zero (tr : h.TreeAt expr u E) : Raised expr u E 0 h h := by
  refine ⟨tr, ?_, .refl h, fun _ _ => rfl⟩
  rw [IndexTerm.raise_zero]
  exact tr

namespace Raised

/-- There is one heap only in which the tree is raised. -/
lemma unique (ra : Raised expr u E crossed h h₂) (ra' : Raised expr u E crossed h h₃) :
    h₃ = h₂ := by
  refine ra.raised.heap_eq ra'.raised.unfolds (ra.reindexed.symm.trans ra'.reindexed) fun x hx => ?_
  rw [ra'.get_eq hx, ra.get_eq hx]

/-- A shift takes the tree from any number of binders to any other over which it can be raised. -/
lemma shift (ra : Raised expr u E crossed h h₂) (hu : u.InRange) (hh : u.height ≤ indexBound)
    {inner : Nat} (fit : (u.raise inner 0).InRange) :
    ∃ h₃, h₂.shift expr 0 (inner - crossed) = .ok h₃ ∧ Raised expr u E inner h h₃ := by
  have le := Nat.zero_le (0 + crossed)
  obtain ⟨h₃, e⟩ := ra.raised.exists_shift_iff.2
    ((IndexTerm.shiftable_raise_iff (Nat.le_refl 0) le hu (by omega)).2 fit)
  have sh := ra.raised.shifted e
  have tr := sh.tree
  rw [IndexTerm.shiftBy_raise inner (Nat.le_refl 0) le] at tr
  refine ⟨h₃, e, ra.tree, tr, ra.reindexed.trans (reindexed_of_shift e), fun x hx => ?_⟩
  rw [sh.keeps.get_eq_of_size_eq sh.size_eq hx, ra.get_eq hx]

/-- Where a binder is entered, one more shift raises the replacement over it. -/
lemma enter (ra : Raised expr u E crossed h h₂) (hu : u.InRange) (hh : u.height ≤ indexBound)
    (fit : (u.raise (crossed + 1) 0).InRange) :
    ∃ h₃, h₂.shift expr 0 1 = .ok h₃ ∧ Raised expr u E (crossed + 1) h h₃ := by
  obtain ⟨h₃, e, ra'⟩ := ra.shift hu hh fit
  rw [show (↑(crossed + 1) : Int) - crossed = 1 by omega] at e
  exact ⟨h₃, e, ra'⟩

/-- Where a binder is left, a shift takes the replacement back. -/
lemma leave (ra : Raised expr u E (crossed + 1) h h₂) (hu : u.InRange)
    (hh : u.height ≤ indexBound) (fit : (u.raise (crossed + 1) 0).InRange) :
    ∃ h₃, h₂.shift expr 0 (-1) = .ok h₃ ∧ Raised expr u E crossed h h₃ := by
  obtain ⟨h₃, e, ra'⟩ := ra.shift hu hh (fit.raise_of_le (Nat.le_succ crossed))
  rw [show (crossed : Int) - ↑(crossed + 1) = -1 by omega] at e
  exact ⟨h₃, e, ra'⟩

/-- What is done to both heaps away from the tree leaves the tree raised. -/
lemma after {T : Finset Slot} (ra : Raised expr u E crossed h h₂) (kp : Keeps h h' T)
    (kp₂ : Keeps h₂ h₂' T) (dis : Disjoint E T) (es : h₂'.size = h'.size)
    (eq : ∀ x, x ∉ E → h₂'.get x = h'.get x) : Raised expr u E crossed h' h₂' := by
  refine ⟨ra.tree.frame kp dis, ra.raised.frame kp₂ dis, ⟨fun x node hg => ?_, es⟩, eq⟩
  by_cases hx : x ∈ E
  · have hn := Finset.disjoint_left.1 dis hx
    rw [kp.get_eq (ra.tree.lt_size hx) hn] at hg
    rw [kp₂.get_eq (ra.raised.lt_size hx) hn]
    exact ra.reindexed.get hg
  · rw [eq x hx]
    exact .inl hg

/-- A term that is built at the end of both heaps takes up the same slots of both. -/
lemma built {copied copied₂ v} (ra : Raised expr u E crossed h h₂) (bt : Built h h' copied v)
    (bt₂ : Built h₂ h₂' copied₂ v) : Raised expr u E crossed h' h₂' ∧ copied₂ = copied := by
  have es : h₂'.size = h'.size := by rw [bt.size_eq, bt₂.size_eq, ra.reindexed.size_eq]
  have post := bt₂.post
  rw [ra.reindexed.size_eq] at post
  refine ⟨ra.after bt.keeps bt₂.keeps (Finset.disjoint_empty_right E) es fun x hx => ?_, ?_⟩
  · by_cases old : x < h.size
    · have old₂ : x < h₂.size := ra.reindexed.size_eq ▸ old
      rw [bt.keeps.get_eq old (Finset.notMem_empty x),
        bt₂.keeps.get_eq old₂ (Finset.notMem_empty x), ra.get_eq hx]
    · by_cases new : x < h'.size
      · exact bt.post.get_eq post (Nat.le_of_not_lt old) (bt.size_eq ▸ new)
      · have le := Nat.le_of_not_lt new
        rw [get_eq_error_of_le le, get_eq_error_of_le (es.trans_le le), es]
  · exact Nat.succ.inj (bt₂.root_eq.trans (es.trans bt.root_eq.symm))

/-- A copy that is raised where the tree is not, and a plain copy where it is. -/
lemma replaceByCopy (ra : Raised expr u E crossed h h₂) (hu : u.InRange)
    (hh : u.height ≤ indexBound) (fit : (u.raise crossed 0).InRange) (hlt : slot < h.size)
    (hs : slot ∉ E) :
    ∃ h' h₂', h.replaceByCopy slot expr crossed = .ok h' ∧
      h₂.replaceByCopy slot expr 0 = .ok h₂' ∧ Raised expr u E crossed h' h₂' ∧
      Keeps h h' {slot} := by
  have un := ra.tree.unfolds
  have un₂ := ra.raised.unfolds
  have hlt₂ : slot < h₂.size := ra.reindexed.size_eq ▸ hlt
  have fit : u.Shiftable crossed 0 :=
    (IndexTerm.shiftable_natCast_iff hu (by rwa [Nat.zero_add])).2 fit
  obtain ⟨hc, copied, node, bt, hg, e⟩ :=
    un.replaceByCopy_built un.height_le hlt fun _ => fit
  obtain ⟨hc₂, copied₂, node₂, bt₂, hg₂, e₂⟩ :=
    un₂.replaceByCopy_built un₂.height_le hlt₂ fun hn : 0 ≠ 0 => absurd rfl hn
  rw [IndexTerm.raise_zero] at bt₂
  obtain ⟨rac, rfl⟩ := ra.built bt bt₂
  have hcE : copied₂ ∉ E := fun hm => absurd (ra.tree.lt_size hm) (Nat.not_lt.2 bt.post.le)
  rw [rac.get_eq hcE, hg] at hg₂
  cases hg₂
  have ltc := hlt.trans_le bt.keeps.size_le
  have kp := keeps_put hc slot node (Finset.mem_singleton_self slot)
  have kp₂ := keeps_put hc₂ slot node (Finset.mem_singleton_self slot)
  refine ⟨_, _, e, e₂, rac.after kp kp₂ (Finset.disjoint_singleton_right.2 hs) ?_ fun x hx => ?_,
    (bt.keeps.mono (Finset.empty_subset {slot})).trans kp (.refl _ _)⟩
  · rw [size_put, size_put, rac.reindexed.size_eq]
  · by_cases ex : x = slot
    · rw [ex, get_put_self node ltc, get_put_self node (rac.reindexed.size_eq ▸ ltc)]
    · rw [get_put_of_ne node ex, get_put_of_ne node ex, rac.get_eq hx]

end Raised

/-! ### The two walks -/

/-- Two walks that are in step: both succeed, with related heaps, or both meet more binders than can
be counted. -/
inductive InStep (P : Heap → Heap → Prop) : Except Fault Heap → Except Fault Heap → Prop where
  | ok {h h₂ : Heap} : P h h₂ → InStep P (.ok h) (.ok h₂)
  | error : InStep P (.error .tooManyBinders) (.error .tooManyBinders)

namespace InStep

variable {P Q : Heap → Heap → Prop} {x y : Except Fault Heap} {f g : Heap → Except Fault Heap}

lemma bind (st : InStep P x y) (next : ∀ h h₂, P h h₂ → InStep Q (f h) (g h₂)) :
    InStep Q (x.bind f) (y.bind g) := by
  cases st with
  | ok p => exact next _ _ p
  | error => exact .error

/-- The second walk may do something more by itself. -/
lemma bind_right (st : InStep P x y) (next : ∀ h h₂, P h h₂ → ∃ h₃, g h₂ = .ok h₃ ∧ Q h h₃) :
    InStep Q x (y.bind g) := by
  cases st with
  | ok p =>
    obtain ⟨h₃, e, q⟩ := next _ _ p
    rw [bind_ok, e]
    exact .ok q
  | error => exact .error

lemma imp (st : InStep P x y) (next : ∀ h h₂, P h h₂ → Q h h₂) : InStep Q x y := by
  cases st with
  | ok p => exact .ok (next _ _ p)
  | error => exact .error

lemma eq (st : InStep (fun h h₂ => h₂ = h) x y) : y = x := by
  cases st with
  | ok e => rw [e]
  | error => rfl

end InStep

lemma crossBinder_eq_error {count} (hn : ¬ count + 1 < indexBound) :
    crossBinder count = .error .tooManyBinders := by
  rw [crossBinder, if_neg hn]

lemma substituteByRaisingWithin_idx {index} (hg : h.get slot = .ok (.idx index))
    (replacement depth level) :
    substituteByRaisingWithin replacement (depth + 1) h slot level =
      if index = level then h.replaceByCopy slot replacement 0 else .ok h := by
  rw [substituteByRaisingWithin, hg]
  rfl

lemma substituteByRaisingWithin_lam {body} (hg : h.get slot = .ok (.lam body))
    (replacement depth level) :
    substituteByRaisingWithin replacement (depth + 1) h slot level =
      (crossBinder level).bind fun level =>
        (h.shift replacement 0 1).bind fun h =>
          (substituteByRaisingWithin replacement depth h body level).bind fun h =>
            h.shift replacement 0 (-1) := by
  rw [substituteByRaisingWithin, hg]
  rfl

lemma substituteByRaisingWithin_app {fn arg} (hg : h.get slot = .ok (.app fn arg))
    (replacement depth level) :
    substituteByRaisingWithin replacement (depth + 1) h slot level =
      (substituteByRaisingWithin replacement depth h fn level).bind fun h =>
        substituteByRaisingWithin replacement depth h arg level := by
  rw [substituteByRaisingWithin, hg]
  rfl

/-- The walks stay in step through a tree if the replacement can be raised over all binders on its
longest way. -/
lemma TreeAt.walks_inStep {old depth depth'} (tr : h.TreeAt slot t S)
    (ra : Raised expr u E crossed h h₂) (dis : Disjoint S E) (hold : ∀ x ∈ S, x < old)
    (hd : t.height ≤ depth) (hd' : t.height ≤ depth') (hu : u.InRange) (hh : u.height ≤ indexBound)
    (fit : (u.raise (crossed + t.nesting) 0).InRange) (level) :
    InStep (fun h' h₂' => Raised expr u E crossed h' h₂' ∧ Keeps h h' S)
      (substituteAmongOld expr old depth h slot level crossed)
      (substituteByRaisingWithin expr depth' h₂ slot level) := by
  induction t generalizing h h₂ slot S depth depth' level crossed with
  | idx index =>
    obtain ⟨depth, rfl⟩ := IndexTerm.depth_eq_succ hd
    obtain ⟨depth', rfl⟩ := IndexTerm.depth_eq_succ hd'
    rw [substituteAmongOld_of_lt (hold _ tr.root_mem)]
    cases tr with
    | idx hg =>
      rw [Finset.disjoint_singleton_left] at dis
      rw [substituteAt_idx hg, substituteByRaisingWithin_idx ((ra.get_eq dis).trans hg)]
      by_cases hl : index = level
      · obtain ⟨h', h₂', e, e₂, ra', kp⟩ :=
          ra.replaceByCopy hu hh fit (lt_size_of_get_eq_ok hg) dis
        rw [if_pos hl, if_pos hl, e, e₂]
        exact .ok ⟨ra', kp⟩
      · rw [if_neg hl, if_neg hl]
        exact .ok ⟨ra, .refl h _⟩
  | lam body ih =>
    obtain ⟨depth, rfl⟩ := IndexTerm.depth_eq_succ hd
    obtain ⟨depth', rfl⟩ := IndexTerm.depth_eq_succ hd'
    rw [substituteAmongOld_of_lt (hold _ tr.root_mem)]
    cases tr with
    | lam hg trb _ =>
      rw [Finset.disjoint_insert_left] at dis
      rw [IndexTerm.nesting, Nat.add_comm body.nesting, ← Nat.add_assoc] at fit
      rw [substituteAt_lam hg, substituteByRaisingWithin_lam ((ra.get_eq dis.1).trans hg)]
      by_cases hl : level + 1 < indexBound
      · -- The replacement is raised once more for the body, and lowered by as much behind it.
        obtain ⟨h₃, e₃, ra₃⟩ := ra.enter hu hh (fit.raise_of_le (Nat.le_add_right _ _))
        have st := ih trb ra₃ dis.2 (fun x hx => hold x (Finset.mem_insert_of_mem hx))
          (Nat.le_of_succ_le_succ hd) (Nat.le_of_succ_le_succ hd') fit (level + 1)
        rw [crossBinder_eq_ok_iff.2 ⟨hl, rfl⟩, bind_ok, bind_ok, e₃, bind_ok]
        refine st.bind_right ?_
        intro h' h₃' p
        obtain ⟨ra', kp⟩ := p
        obtain ⟨h₂', e, ra₂⟩ := ra'.leave hu hh (fit.raise_of_le (Nat.le_add_right _ _))
        exact ⟨h₂', e, ra₂, kp.mono (Finset.subset_insert _ _)⟩
      · rw [crossBinder_eq_error hl]
        exact .error
  | app fn arg ihf iha =>
    obtain ⟨depth, rfl⟩ := IndexTerm.depth_eq_succ hd
    obtain ⟨depth', rfl⟩ := IndexTerm.depth_eq_succ hd'
    have hd := Nat.le_of_succ_le_succ hd
    have hd' := Nat.le_of_succ_le_succ hd'
    rw [substituteAmongOld_of_lt (hold _ tr.root_mem)]
    cases tr with
    | @app _ _ _ _ _ S R hg trf tra _ _ disSR =>
      rw [Finset.disjoint_insert_left, Finset.disjoint_union_left] at dis
      have fitF := fit.raise_of_le (Nat.add_le_add_left (Nat.le_max_left _ _) crossed)
      have fitA := fit.raise_of_le (Nat.add_le_add_left (Nat.le_max_right _ _) crossed)
      rw [substituteAt_app hg, substituteByRaisingWithin_app ((ra.get_eq dis.1).trans hg)]
      refine (ihf trf ra dis.2.1
        (fun x hx => hold x (Finset.mem_insert_of_mem (Finset.mem_union_left R hx)))
        (le_of_max_le_left hd) (le_of_max_le_left hd') fitF level).bind ?_
      intro h₁ h₁₂ p
      obtain ⟨ra₁, kp₁⟩ := p
      refine (iha (tra.frame kp₁ disSR.symm) ra₁ dis.2.2
        (fun x hx => hold x (Finset.mem_insert_of_mem (Finset.mem_union_right S hx)))
        (le_of_max_le_right hd) (le_of_max_le_right hd') fitA level).imp ?_
      intro h' h₂' p
      obtain ⟨ra', kp⟩ := p
      exact ⟨ra', (kp₁.union kp).mono (Finset.subset_insert _ _)⟩

/-- Substitution in a tree by copies that are raised each by the binders around its place gives the
same heap, slot by slot, as substitution by plain copies of a replacement that is raised and lowered
along the way. If the replacement can be raised over the deepest nesting of binders, both succeed
unless the binders cannot be counted, and the replacement is what it was. -/
theorem substituteByRaising_eq (un : h.Unfolds within t) (sp : h.SpansTree within)
    (unE : h.Unfolds expr u) (spE : h.SpansTree expr)
    (apart : ∀ x, h.Reaches within x → ¬ h.Reaches expr x) (hs : h.size ≤ indexBound)
    (fit : (u.raise t.nesting 0).InRange) (level : Nat) :
    h.substituteByRaising within expr level = h.substitute within expr level ∧
      (level + t.nesting < indexBound → ∃ h', h.substitute within expr level = .ok h') ∧
      ∀ h', h.substitute within expr level = .ok h' → ∀ x, h.Reaches expr x →
        h'.get x = h.get x := by
  obtain ⟨S, tr⟩ := un.treeAt sp
  obtain ⟨E, trE⟩ := unE.treeAt spE
  have dis : Disjoint S E := Finset.disjoint_left.2 fun x hS hE =>
    apart x (tr.mem_iff_reaches.1 hS) (trE.mem_iff_reaches.1 hE)
  have hu : u.InRange := by
    have fit₀ := fit.raise_of_le (Nat.zero_le t.nesting)
    rwa [IndexTerm.raise_zero] at fit₀
  have hh : u.height ≤ indexBound := unE.height_le_size.trans hs
  refine ⟨?_, fun hl => ?_, fun h' e => (tr.isolates trE dis e).kept⟩
  · have st := tr.walks_inStep trE.raised_zero dis (fun x hx => tr.lt_size hx)
      (tr.height_le.trans (Nat.le_add_right _ patience)) tr.height_le hu hh
      (by rwa [Nat.zero_add]) level
    rw [substituteByRaising, substitute]
    -- Over no binder every heap is its own raised heap, and the only one.
    exact (st.imp fun h' h₂' p => p.1.tree.raised_zero.unique p.1).eq
  · rw [tr.exists_substitute_iff trE dis,
      IndexTerm.copiesFit_iff_nesting hu hh ((Nat.le_add_right _ _).trans_lt hl)]
    refine ⟨hl, fun n ho => ?_⟩
    rw [Nat.zero_add]
    exact fit.raise_of_le ho.le_nesting

/-- In `((λ 1) 0)` one occurrence is under the binder and the other behind it. -/
theorem substituteByRaising_eq_under_binder :
    ∃ h', bodyAndArg.substituteByRaising 3 7 0 = .ok h' ∧ bodyAndArg.substitute 3 7 0 = .ok h' ∧
      ∀ x, bodyAndArg.Reaches 7 x → h'.get x = bodyAndArg.get x := by
  obtain ⟨eq, ok, kept⟩ := substituteByRaising_eq bodyAndArg_body.unfolds
    bodyAndArg_body.spansTree bodyAndArg_arg.unfolds bodyAndArg_arg.spansTree bodyAndArg_apart
    (by decide) (by simp [IndexTerm.nesting, IndexTerm.raise, indexBound]) 0
  obtain ⟨h', e⟩ := ok (by decide)
  exact ⟨h', eq.trans e, e, kept h' e⟩

end WeakHead.Heap

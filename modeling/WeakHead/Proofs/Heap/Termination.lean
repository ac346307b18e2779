import WeakHead.Proofs.Heap.Ending
import WeakHead.Proofs.Heap.Frame

/-!
# Heaps without cycles

Where no slot is part of itself and no part dangles, every way down comes to an end (`Grounded`).
All passes keep that: a copy starts with new nodes whose parts stand before them, and what the slot
of a redex gets has ended further down before.

A substitution may enter a slot that it has replaced, and go on into the copy there. Two things
bound its way: through old nodes it goes where it could go before the call (`EndsWithin` in `h₀`),
and new nodes start trees, in which no slot is met twice, so that what is done in one part of a tree
leaves the other alone.

Main statement: `passes_end`.
-/

namespace WeakHead.Heap

variable {h₀ h h' : Heap} {root slot replacement x : Slot} {node : Node} {depth : Nat}

/-! ### Grounded heaps -/

/-- All ways down from all slots of the heap end there. -/
def Grounded (h : Heap) : Prop :=
  ∀ slot < h.size, ∃ depth, h.EndsWithin depth slot

lemma EndsWithin.lt_size (en : h.EndsWithin depth slot) : slot < h.size := by
  obtain ⟨depth, rfl⟩ := en.depth_eq_succ
  obtain ⟨node, hg, -⟩ := en
  exact lt_size_of_get_eq_ok hg

lemma Grounded.part_lt (gr : h.Grounded) (hg : h.get slot = .ok node) :
    ∀ part ∈ node.parts, part < h.size := by
  intro part hm
  obtain ⟨depth, en⟩ := gr slot (lt_size_of_get_eq_ok hg)
  obtain ⟨depth, rfl⟩ := en.depth_eq_succ
  exact (en.part hg hm).lt_size

/-- Grounded heaps are those without dangling parts and without cycles. -/
lemma grounded_iff : h.Grounded ↔ h.NoDangling ∧ h.Acyclic := by
  constructor
  · intro gr
    refine ⟨fun slot node part hg hm => gr.part_lt hg part hm, fun slot path e => ?_⟩
    obtain ⟨depth, en⟩ := gr slot (lt_size_of_follow e)
    exact en.eq_nil_of_follow e
  · rintro ⟨nd, ac⟩ slot hs
    refine ⟨h.size, endsWithin_of_acyclic (fun x hr => ?_) (fun x _ path => ac x path) hs⟩
    obtain ⟨node, hg⟩ := exists_get_of_lt hr.lt_size
    exact ⟨node, hg, fun part => nd x node part hg⟩

/-- No way down is longer than the heap. -/
lemma Grounded.endsWithin (gr : h.Grounded) (hs : slot < h.size) : h.EndsWithin h.size slot := by
  obtain ⟨nd, ac⟩ := grounded_iff.1 gr
  refine endsWithin_of_acyclic (fun x hr => ?_) (fun x _ path => ac x path) hs
  obtain ⟨node, hg⟩ := exists_get_of_lt hr.lt_size
  exact ⟨node, hg, fun part => nd x node part hg⟩

/-! ### What keeps the ways down -/

lemma EndsWithin.reindexed (en : h.EndsWithin depth slot) (re : Reindexed h h') :
    h'.EndsWithin depth slot := by
  induction depth generalizing slot with
  | zero => exact absurd en id
  | succ depth ih =>
    obtain ⟨node, hg, en⟩ := en
    rcases re.get hg with hg' | ⟨i, j, rfl, hg'⟩
    · exact ⟨node, hg', fun part hm => ih (en part hm)⟩
    · exact ⟨_, hg', nofun⟩

lemma Grounded.reindexed (gr : h.Grounded) (re : Reindexed h h') : h'.Grounded := fun slot hs => by
  obtain ⟨depth, en⟩ := gr slot (re.size_eq ▸ hs)
  exact ⟨depth, en.reindexed re⟩

/-- Ways down end in the same depth where all nodes on them are the same. -/
lemma EndsWithin.congr (en : h.EndsWithin depth slot)
    (eq : ∀ y, h.Reaches slot y → h'.get y = h.get y) : h'.EndsWithin depth slot := by
  induction depth generalizing slot with
  | zero => exact absurd en id
  | succ depth ih =>
    obtain ⟨node, hg, en⟩ := en
    refine ⟨node, (eq slot (reaches_self (lt_size_of_get_eq_ok hg))).trans hg, fun part hm => ?_⟩
    obtain ⟨i, hi⟩ := List.mem_iff_getElem?.1 hm
    exact ih (en part hm) fun y hr => eq y (hr.of_part hg hi)

/-- From some slot on, parts stand before their wholes: the number of the slot bounds its ways. -/
lemma endsWithin_of_parts_lt {n : Nat}
    (parts : ∀ ⦃x node⦄, n ≤ x → h.get x = .ok node → ∀ part ∈ node.parts, n ≤ part ∧ part < x)
    (le : n ≤ x) (hx : x < h.size) : h.EndsWithin (x + 1) x := by
  induction x using Nat.strong_induction_on with
  | _ x ih =>
    obtain ⟨node, hg⟩ := exists_get_of_lt hx
    refine ⟨node, hg, fun part hm => ?_⟩
    obtain ⟨le', lt⟩ := parts le hg part hm
    exact (ih part lt le' (lt.trans hx)).mono lt

lemma NewTrees.grounded (nt : NewTrees h h') (gr : h.Grounded) : h'.Grounded := by
  intro x hx
  by_cases hlt : x < h.size
  · obtain ⟨depth, en⟩ := gr x hlt
    exact ⟨depth, en.congr fun y hr => nt.keeps.get_eq hr.lt_size (Finset.notMem_empty y)⟩
  · exact ⟨x + 1, endsWithin_of_parts_lt nt.parts (Nat.le_of_not_lt hlt) hx⟩

/-- Ways that led to the replaced slot go on through new nodes, and no further than these. -/
lemma Grafts.endsWithin (gf : Grafts h h' slot) (en : h.EndsWithin depth x) :
    h'.EndsWithin (depth + (h'.size + 1)) x := by
  induction depth generalizing x with
  | zero => exact absurd en id
  | succ depth ih =>
    obtain ⟨node, hg, en⟩ := en
    by_cases ex : x = slot
    · subst ex
      obtain ⟨node', hg', new⟩ := gf.root
      have short : h'.EndsWithin (h'.size + 1) x := ⟨node', hg', fun part hm => by
        obtain ⟨le, lt⟩ := new part hm
        exact (endsWithin_of_parts_lt gf.parts le lt).mono lt⟩
      exact short.mono (by omega)
    · rw [Nat.succ_add]
      exact ⟨node, gf.keeps.get_ok hg fun hm => ex (Finset.mem_singleton.1 hm),
        fun part hm => ih (en part hm)⟩

lemma Grafts.grounded (gf : Grafts h h' slot) (gr : h.Grounded) : h'.Grounded := by
  intro x hx
  by_cases hlt : x < h.size
  · obtain ⟨depth, en⟩ := gr x hlt
    exact ⟨_, gf.endsWithin en⟩
  · exact ⟨x + 1, endsWithin_of_parts_lt gf.parts (Nat.le_of_not_lt hlt) hx⟩

/-- A slot may get a node from further down. -/
lemma Grounded.put (gr : h.Grounded) {source p} (ne : p ≠ []) (e : h.follow slot p = some source)
    (hg : h.get source = .ok node) : (h.put slot node).Grounded := by
  obtain ⟨_, hgs⟩ := exists_get_of_follow e
  have hput := get_put_self node (lt_size_of_get_eq_ok hgs)
  intro x hx
  rw [size_put] at hx
  obtain ⟨depth, en⟩ := gr x hx
  refine ⟨depth, ?_⟩
  clear hx
  induction depth using Nat.strong_induction_on generalizing x with
  | _ depth ih =>
    by_cases ex : x = slot
    · -- The node stood at least one part further down, where the way is shorter.
      subst ex
      obtain ⟨rest, eq, ens⟩ := en.of_follow e
      obtain ⟨rest, rfl⟩ := ens.depth_eq_succ
      have pos := List.length_pos_iff.2 ne
      have short : (h.put x node).EndsWithin (rest + 1) x :=
        ⟨node, hput, fun part hm => ih rest (by omega) part (ens.part hg hm)⟩
      exact short.mono (by omega)
    · obtain ⟨depth, rfl⟩ := en.depth_eq_succ
      obtain ⟨node', hg', en⟩ := en
      exact ⟨node', (get_put_of_ne node ex).trans hg',
        fun part hm => ih depth (Nat.lt_succ_self depth) part (en part hm)⟩

/-! ### New nodes start trees -/

/-- A way down leads where it led, or it comes through the replaced slot to a new node. -/
lemma Grafts.follow_cases (gf : Grafts h h' slot) (gr : h.Grounded) (hx : x < h.size) {p z}
    (e : h'.follow x p = some z) :
    h.follow x p = some z ∨
      h.size ≤ z ∧ ∃ q r, p = q ++ r ∧ h.follow x q = some slot ∧ h'.follow slot r = some z := by
  induction p generalizing x with
  | nil =>
    obtain ⟨node, hg'⟩ := exists_get_of_follow e
    rw [follow_nil hg'] at e
    cases e
    exact .inl (if_pos hx)
  | cons i p ih =>
    by_cases ex : x = slot
    · subst ex
      refine .inr ⟨?_, [], i :: p, rfl, if_pos hx, e⟩
      obtain ⟨node, hg', new⟩ := gf.root
      rw [follow_cons hg', Option.bind_eq_some_iff] at e
      obtain ⟨part, hp, e⟩ := e
      exact mem_of_follow (C := (h.size ≤ ·))
        (fun _ _ le hg part hm => (gf.parts le hg part hm).1)
        (new part (List.mem_of_getElem? hp)).1 e
    · obtain ⟨node, hg⟩ := exists_get_of_lt hx
      have hg' := gf.keeps.get_ok hg fun hm => ex (Finset.mem_singleton.1 hm)
      rw [follow_cons hg', Option.bind_eq_some_iff] at e
      obtain ⟨part, hp, e⟩ := e
      rcases ih (gr.part_lt hg part (List.mem_of_getElem? hp)) e with e | ⟨le, q, r, rfl, eq, er⟩
      · exact .inl (by rw [follow_cons hg, hp]; exact e)
      · exact .inr ⟨le, i :: q, r, rfl, by rw [follow_cons hg, hp]; exact eq, er⟩

/-- A tree is still a tree after a graft. -/
lemma Grafts.spansTree (gf : Grafts h h' slot) (gr : h.Grounded) (hx : x < h.size)
    (sp : h.SpansTree x) : h'.SpansTree x := by
  intro p q z ep eq
  rcases gf.follow_cases gr hx ep with ep | ⟨le, p₁, p₂, rfl, ep, ep'⟩ <;>
    rcases gf.follow_cases gr hx eq with eq | ⟨le', q₁, q₂, rfl, eq, eq'⟩
  · exact sp p q z ep eq
  · exact absurd (lt_size_of_follow ep) (Nat.not_lt.2 le')
  · exact absurd (lt_size_of_follow eq) (Nat.not_lt.2 le)
  · rw [sp p₁ q₁ slot ep eq, gf.spans slot (.inl rfl) p₂ q₂ z ep' eq']

/-- What comes of a grounded heap `h₀` in the middle of a substitution below `root`. -/
structure Overgrown (h₀ : Heap) (root : Slot) (h : Heap) : Prop where
  sprouted : Sprouted h₀ root h
  grounded : h.Grounded
  spans : ∀ x, h₀.size ≤ x → h.SpansTree x

lemma Overgrown.refl (gr : h.Grounded) (root : Slot) : Overgrown h root h :=
  ⟨.refl h root, gr, fun _ => spansTree_of_le⟩

/-- One more variable below the root is replaced by a copy. -/
lemma Overgrown.replaceByCopy (og : Overgrown h₀ root h) (bl : h₀.Below root x) {i crossed}
    (hg : h.get x = .ok (.idx i)) (e : h.replaceByCopy x replacement crossed = .ok h') :
    Overgrown h₀ root h' := by
  have gf := grafts_of_replaceByCopy (lt_size_of_get_eq_ok hg) e
  refine ⟨og.sprouted.replaceByCopy bl hg e, gf.grounded og.grounded, fun y le => ?_⟩
  by_cases hy : y < h.size
  · exact gf.spansTree og.grounded hy (og.spans y le)
  · exact gf.spans y (.inr (Nat.le_of_not_lt hy))

/-! ### Walks that change no shape -/

/-- A shift ends if it is followed as deep as the ways down go. -/
lemma EndsWithin.ends_shiftWithin {d} (en : h.EndsWithin d slot) (le : d ≤ depth) {cutoff amount} :
    Ends (shiftWithin depth h slot cutoff amount) := by
  induction d generalizing h slot depth cutoff with
  | zero => exact absurd en id
  | succ d ih =>
    obtain ⟨depth, rfl⟩ := Nat.exists_eq_add_of_le' (Nat.zero_lt_of_lt le)
    have le := Nat.le_of_succ_le_succ le
    obtain ⟨node, hg, en⟩ := en
    cases node with
    | idx index =>
      rw [shiftWithin_idx hg]
      split
      · exact (ends_moveIndex _ _ _).map
      · exact ends_ok h
    | lam body =>
      rw [shiftWithin_lam hg]
      exact (ends_crossBinder cutoff).bind fun inner _ => ih (en body List.mem_cons_self) le
    | app fn arg =>
      rw [shiftWithin_app hg]
      refine (ih (en fn List.mem_cons_self) le).bind fun h₁ e => ?_
      have ena := en arg (List.mem_cons_of_mem _ List.mem_cons_self)
      exact ih (ena.reindexed (reindexed_of_shiftWithin e)) le
    | var name =>
      rw [shiftWithin_named hg (.inl ⟨name, rfl⟩)]
      nofun
    | abs binder body =>
      rw [shiftWithin_named hg (.inr ⟨binder, body, rfl⟩)]
      nofun

lemma Grounded.ends_shift (gr : h.Grounded) (slot cutoff amount) :
    Ends (h.shift slot cutoff amount) := by
  by_cases hs : slot < h.size
  · exact (gr.endsWithin hs).ends_shiftWithin (by rw [depthBound]; omega)
  · have hg := get_eq_error_of_le (Nat.le_of_not_lt hs)
    rw [shift, depthBound, Nat.succ_add, shiftWithin_error hg]
    exact ends_of_get_error hg

lemma EndsWithin.ends_copyWithin {d} (en : h.EndsWithin d slot) (le : d ≤ depth) :
    Ends (copyWithin depth h slot) := by
  induction d generalizing h slot depth with
  | zero => exact absurd en id
  | succ d ih =>
    obtain ⟨depth, rfl⟩ := Nat.exists_eq_add_of_le' (Nat.zero_lt_of_lt le)
    have le := Nat.le_of_succ_le_succ le
    obtain ⟨node, hg, en⟩ := en
    rcases node.parts_cases with hp | ⟨part, hp⟩ | ⟨fn, arg, rfl⟩
    · rw [copyWithin_leaf hg hp]
      exact ends_ok _
    · rw [copyWithin_one hg hp]
      exact (ih (en part (hp ▸ List.mem_cons_self)) le).map
    · rw [copyWithin_app hg]
      refine (ih (en fn List.mem_cons_self) le).bind fun c e => ?_
      have kp := (copied_of_copyWithin e).trees.keeps
      have ena := en arg (List.mem_cons_of_mem _ List.mem_cons_self)
      exact (ih (ena.congr fun y hr => kp.get_eq hr.lt_size (Finset.notMem_empty y)) le).map

lemma Grounded.ends_copy (gr : h.Grounded) (slot) : Ends (h.copy slot) := by
  by_cases hs : slot < h.size
  · exact (gr.endsWithin hs).ends_copyWithin (Nat.le_succ _)
  · have hg := get_eq_error_of_le (Nat.le_of_not_lt hs)
    rw [copy, depthBound, copyWithin_error hg]
    exact ends_of_get_error hg

/-! ### Substitutions -/

/-- Replacing a variable by a copy ends in a grounded heap. -/
lemma Grounded.ends_replaceByCopy (gr : h.Grounded) (slot replacement crossed) :
    Ends (h.replaceByCopy slot replacement crossed) := by
  rw [replaceByCopy_eq]
  refine (gr.ends_copy replacement).bind fun c e => ?_
  have gr₁ := (copied_of_copyWithin e).trees.grounded gr
  refine Ends.bind ?_ fun h₂ _ => ends_copyOver h₂ slot _
  split
  · exact ends_ok _
  · exact gr₁.ends_shift _ _ _

/-- One turn of a substitution ends if the turns at the parts do, the second one in the heap that
the first one leaves. -/
lemma Grounded.ends_substituteAt {descend : Heap → Slot → Nat → Nat → Except Fault Heap}
    (gr : h.Grounded) (hg : h.get slot = .ok node)
    (inner : ∀ part ∈ node.parts, ∀ level crossed, Ends (descend h part level crossed))
    (second : ∀ fn arg level crossed h₁, node = .app fn arg →
      descend h fn level crossed = .ok h₁ → Ends (descend h₁ arg level crossed)) {level crossed} :
    Ends (substituteAt replacement descend h slot level crossed) := by
  cases node with
  | idx index =>
    rw [substituteAt_idx hg]
    split
    · exact gr.ends_replaceByCopy _ _ _
    · exact ends_ok h
  | lam body =>
    rw [substituteAt_lam hg]
    exact (ends_crossBinder level).bind fun _ _ => inner body List.mem_cons_self _ _
  | app fn arg =>
    rw [substituteAt_app hg]
    exact (inner fn List.mem_cons_self _ _).bind fun h₁ e => second fn arg _ _ h₁ rfl e
  | var name =>
    rw [substituteAt_named hg (.inl ⟨name, rfl⟩)]
    nofun
  | abs binder body =>
    rw [substituteAt_named hg (.inr ⟨binder, body, rfl⟩)]
    nofun

/-- The walk of a substitution leaves a grounded heap grounded. -/
lemma Grounded.substituteWithin (gr : h.Grounded) {level crossed}
    (e : substituteWithin replacement depth h slot level crossed = .ok h') : h'.Grounded :=
  substituteWithin_keeps (P := Grounded) (I := fun _ => True) (fun _ _ _ _ _ _ _ _ => trivial)
    (fun _ _ _ _ _ gr _ hg e =>
      (grafts_of_replaceByCopy (lt_size_of_get_eq_ok hg) e).grounded gr) gr trivial e

/-- In a tree a substitution goes no deeper than the tree is. -/
lemma EndsWithin.ends_substituteWithin {d} (en : h.EndsWithin d slot) (gr : h.Grounded)
    (sp : h.SpansTree slot) (le : d ≤ depth) {level crossed} :
    Ends (substituteWithin replacement depth h slot level crossed) := by
  induction d generalizing h slot depth level crossed with
  | zero => exact absurd en id
  | succ d ih =>
    obtain ⟨depth, rfl⟩ := Nat.exists_eq_add_of_le' (Nat.zero_lt_of_lt le)
    have le := Nat.le_of_succ_le_succ le
    obtain ⟨node, hg, en⟩ := en
    rw [substituteWithin_succ]
    refine gr.ends_substituteAt hg (fun part hm level crossed => ?_)
      fun fn arg level crossed h₁ eq e => ?_
    · obtain ⟨i, hi⟩ := List.mem_iff_getElem?.1 hm
      exact ih (en part hm) gr (sp.part hg hi) le
    · subst eq
      -- What is below the argument is not below the function, and so the walk there left it alone.
      have apart : ∀ y, h.Reaches arg y → h₁.get y = h.get y := by
        intro y hra
        have grown := (Sprouted.refl h fn).substituteWithin (below_self h fn) e
        refine (grown.old y hra.lt_size).resolve_right fun ⟨⟨⟨p, ep⟩, _⟩, _⟩ => ?_
        obtain ⟨q, eq⟩ := hra
        have eq' := sp (0 :: p) (1 :: q) y (by rw [follow_cons hg]; exact ep)
          (by rw [follow_cons hg]; exact eq)
        cases eq'
      have ena := en arg (List.mem_cons_of_mem _ List.mem_cons_self)
      have spa : h.SpansTree arg := sp.part hg (i := 1) rfl
      refine ih (ena.congr apart) (gr.substituteWithin e) (spa.congr ?_) le
      refine follow_congr (fun y node hr hy part hm => ?_) apart (reaches_self ena.lt_size)
      obtain ⟨i, ei⟩ := exists_follow_part hy hm (gr.part_lt hy part hm)
      exact hr.trans ⟨[i], ei⟩

/-- The walk among old slots leaves a heap overgrown. -/
lemma Overgrown.substituteAmongOld (og : Overgrown h₀ root h) (bl : h₀.Below root slot)
    {old level crossed}
    (e : substituteAmongOld replacement old depth h slot level crossed = .ok h') :
    Overgrown h₀ root h' :=
  substituteAmongOld_keeps (P := Overgrown h₀ root) (I := h₀.Below root)
    (fun _ _ _ og bl hg => og.sprouted.below_part bl hg)
    (fun _ _ _ _ _ og bl hg e => og.replaceByCopy bl hg e) og bl e

/-- New nodes are entered with a bound of their own. -/
lemma Overgrown.ends_substituteFresh (og : Overgrown h₀ root h) (le : h₀.size ≤ slot)
    {level crossed} :
    Ends (Heap.substituteAmongOld replacement h₀.size (depth + 1) h slot level crossed) := by
  rw [substituteAmongOld_of_not_lt (Nat.not_lt.2 le)]
  by_cases hs : slot < h.size
  · exact (og.grounded.endsWithin hs).ends_substituteWithin og.grounded (og.spans slot le)
      (Nat.le_succ _)
  · have hg := get_eq_error_of_le (Nat.le_of_not_lt hs)
    rw [depthBound, substituteWithin_succ, substituteAt_error hg]
    exact ends_of_get_error hg

/-- Among old nodes a substitution goes where it could go before, and one node further: a variable
may have become the start of a copy by now. -/
lemma Overgrown.ends_substituteAmongOld {d} (og : Overgrown h₀ root h) (bl : h₀.Below root slot)
    (en : h₀.EndsWithin d slot) (lt : d < depth) {level crossed} :
    Ends (Heap.substituteAmongOld replacement h₀.size depth h slot level crossed) := by
  induction d generalizing h slot depth level crossed with
  | zero => exact absurd en id
  | succ d ih =>
    obtain ⟨depth, rfl⟩ := Nat.exists_eq_add_of_le' (Nat.zero_lt_of_lt lt)
    have lt := Nat.lt_of_succ_lt_succ lt
    obtain ⟨node₀, hg₀, en⟩ := en
    have hs := lt_size_of_get_eq_ok hg₀
    rw [substituteAmongOld_of_lt hs]
    obtain ⟨node, hg⟩ := exists_get_of_lt (hs.trans_le og.sprouted.size_le)
    have inner := og.sprouted.below_part bl hg
    -- Either the node is the old one, or all of its parts are new.
    have part_ends : ∀ part ∈ node.parts, ∀ h₁, Overgrown h₀ root h₁ → ∀ level crossed,
        Ends (Heap.substituteAmongOld replacement h₀.size depth h₁ part level crossed) := by
      intro part hm h₁ og₁ level crossed
      rcases og.sprouted.old slot hs with e | ⟨-, node', hg', new⟩
      · cases hg.symm.trans (e.trans hg₀)
        exact ih og₁ (inner part hm) (en part hm) lt
      · cases hg.symm.trans hg'
        obtain ⟨depth, rfl⟩ := Nat.exists_eq_add_of_le' (Nat.zero_lt_of_lt lt)
        exact og₁.ends_substituteFresh (new part hm)
    refine og.grounded.ends_substituteAt hg (fun part hm => part_ends part hm h og)
      fun fn arg level crossed h₁ eq e => ?_
    subst eq
    have og₁ := og.substituteAmongOld (inner fn List.mem_cons_self) e
    exact part_ends arg (List.mem_cons_of_mem _ List.mem_cons_self) h₁ og₁ level crossed

/-- A substitution in a grounded heap ends. -/
lemma Grounded.ends_substitute (gr : h.Grounded) (slot replacement level) :
    Ends (h.substitute slot replacement level) := by
  by_cases hs : slot < h.size
  · exact (Overgrown.refl gr slot).ends_substituteAmongOld (below_self h slot) (gr.endsWithin hs)
      (by rw [depthBound]; omega)
  · have hg := get_eq_error_of_le (Nat.le_of_not_lt hs)
    rw [substitute, depthBound, Nat.succ_add, substituteAmongOld_of_not_lt hs, depthBound,
      substituteWithin_succ, substituteAt_error hg]
    exact ends_of_get_error hg

lemma Grounded.substitute (gr : h.Grounded) {level}
    (e : h.substitute slot replacement level = .ok h') : h'.Grounded :=
  ((Overgrown.refl gr slot).substituteAmongOld (below_self h slot) e).grounded

/-! ### Steps -/

/-- The search for a redex ends if it is followed as deep as the ways down go. -/
lemma EndsWithin.ends_headRedexWithin {d} (en : h.EndsWithin d slot) (le : d ≤ depth) :
    Ends (h.headRedexWithin depth slot) := by
  induction d generalizing slot depth with
  | zero => exact absurd en id
  | succ d ih =>
    obtain ⟨depth, rfl⟩ := Nat.exists_eq_add_of_le' (Nat.zero_lt_of_lt le)
    have le := Nat.le_of_succ_le_succ le
    obtain ⟨node, hg, en⟩ := en
    by_cases ha : ∃ fn arg, node = .app fn arg
    · obtain ⟨fn, arg, rfl⟩ := ha
      rw [headRedexWithin_app_eq hg]
      refine (ends_get h fn).bind fun node _ => ?_
      cases node with
      | lam body => exact ends_ok _
      | _ => exact ih (en fn List.mem_cons_self) le
    · obtain ⟨x, enx, eq⟩ := headRedexWithin_of_ne_app fun fn arg hg' =>
        ha ⟨fn, arg, Except.ok.inj (hg.symm.trans hg')⟩
      rw [eq]
      exact enx

lemma Grounded.ends_headRedex (gr : h.Grounded) (root) : Ends (h.headRedex root) := by
  by_cases hs : root < h.size
  · exact (gr.endsWithin hs).ends_headRedexWithin (Nat.le_succ _)
  · have hg := get_eq_error_of_le (Nat.le_of_not_lt hs)
    obtain ⟨x, enx, eq⟩ := headRedexWithin_of_ne_app fun fn arg hg' => by cases hg.symm.trans hg'
    rw [headRedex, depthBound, eq]
    exact enx

lemma Grounded.ends_contract (gr : h.Grounded) (redex) : Ends (h.contract redex) := by
  rw [contract_eq]
  refine (gr.ends_shift _ _ _).bind fun h₁ e₁ => ?_
  have gr₁ := gr.reindexed (reindexed_of_shift e₁)
  refine (gr₁.ends_substitute _ _ _).bind fun h₂ e₂ => ?_
  exact ((gr₁.substitute e₂).ends_shift _ _ _).bind fun h₃ _ => ends_copyOver h₃ _ _

lemma Grounded.ends_step (gr : h.Grounded) (root) : Ends (h.step root) := by
  rw [step_eq]
  refine (gr.ends_headRedex root).bind fun found _ => ?_
  cases found with
  | none => exact ends_ok _
  | some redex => exact (gr.ends_contract redex).map

/-- The reduced body stands below the redex, and the slot of the redex gets its node. -/
lemma Grounded.contract (gr : h.Grounded) {redex n} (os : h.OnSpine redex root n)
    (e : h.contract redex = .ok h') : h'.Grounded := by
  obtain ⟨fn, hg, hf⟩ := os.get_redex
  obtain ⟨h₁, h₂, h₃, node, e₁, e₂, e₃, hg₃, rfl⟩ := exists_passes e
  have sp := os.sprouted e₁ e₂ e₃
  have gr₂ := (gr.reindexed (reindexed_of_shift e₁)).substitute e₂
  have way : h₃.follow redex.slot [0, 0] = some redex.body := by
    rw [follow_cons (sp.get_of_ne_idx hg nofun)]
    show h₃.follow fn [0] = _
    rw [follow_cons (sp.get_of_ne_idx hf nofun)]
    exact follow_nil hg₃
  exact (gr₂.reindexed (reindexed_of_shift e₃)).put (List.cons_ne_nil _ _) way hg₃

lemma Grounded.step (gr : h.Grounded) {found} (e : h.step root = .ok (h', found)) :
    h'.Grounded := by
  cases found with
  | none =>
    obtain ⟨-, rfl⟩ := step_eq_none_iff.1 e
    exact gr
  | some slot =>
    obtain ⟨redex, n, -, -, os, ec⟩ := onSpine_of_step e
    exact gr.contract os ec

/-- In a heap without cycles and dangling parts, all passes and all steps come to an end, whatever
is shared and however the arguments overlap: the bounds of the walks are not felt, and deeper walks
give the same results and the same faults. What they give is a heap without cycles and dangling
parts again. -/
theorem passes_end (nd : h.NoDangling) (ac : h.Acyclic) :
    (∀ slot cutoff amount,
      Stabilizes (fun depth => shiftWithin depth h slot cutoff amount)
        (h.shift slot cutoff amount) ∧
      ∀ h', h.shift slot cutoff amount = .ok h' → h'.NoDangling ∧ h'.Acyclic) ∧
    (∀ slot replacement level,
      Stabilizes (fun depth => substituteWithin replacement depth h slot level 0)
        (h.substitute slot replacement level) ∧
      ∀ h', h.substitute slot replacement level = .ok h' → h'.NoDangling ∧ h'.Acyclic) ∧
    (∀ slot,
      Stabilizes (fun depth => copyWithin depth h slot) (h.copy slot) ∧
      ∀ h' copied, h.copy slot = .ok (h', copied) → h'.NoDangling ∧ h'.Acyclic) ∧
    ∀ root,
      Stabilizes (fun depth => h.headRedexWithin depth root) (h.headRedex root) ∧
      Ends (h.step root) ∧
      ∀ h' found, h.step root = .ok (h', found) → h'.NoDangling ∧ h'.Acyclic := by
  have gr := grounded_iff.2 ⟨nd, ac⟩
  refine ⟨fun slot cutoff amount => ⟨shiftWithin_stabilizes (gr.ends_shift slot cutoff amount), ?_⟩,
    fun slot replacement level =>
      ⟨substituteAmongOld_stabilizes (gr.ends_substitute slot replacement level), ?_⟩,
    fun slot => ⟨copyWithin_stabilizes (gr.ends_copy slot), ?_⟩,
    fun root => ⟨headRedexWithin_stabilizes (gr.ends_headRedex root), gr.ends_step root, ?_⟩⟩
  · exact fun h' e => grounded_iff.1 (gr.reindexed (reindexed_of_shift e))
  · exact fun h' e => grounded_iff.1 (gr.substitute e)
  · exact fun h' copied e => grounded_iff.1 ((copied_of_copyWithin e).trees.grounded gr)
  · exact fun h' found e => grounded_iff.1 (gr.step e)

/-- The term `(0 0)`, with one slot for both of its variables. -/
def doubledVariable : Heap :=
  ⟨#[.idx 0, .app 0 0]⟩

lemma doubledVariable_parts_lt (x node) (hg : doubledVariable.get x = .ok node) :
    ∀ part ∈ node.parts, part < x :=
  parts_lt_of_nodes (by decide) x node hg

/-- The term is put in for its own variable, and the second visit to the one slot goes on into the
copy that the first has left there. -/
theorem passes_end_overlapping :
    ∃ h', doubledVariable.substitute 1 1 0 = .ok h' ∧ h'.size = 31 ∧
      Stabilizes (fun depth => substituteWithin 1 depth doubledVariable 1 0 0) (.ok h') ∧
      h'.NoDangling ∧ h'.Acyclic := by
  have nd : doubledVariable.NoDangling := fun x node part hg hm =>
    (doubledVariable_parts_lt x node hg part hm).trans (lt_size_of_get_eq_ok hg)
  obtain ⟨-, substitution, -, -⟩ :=
    passes_end nd (acyclic_of_parts_lt doubledVariable_parts_lt)
  obtain ⟨stable, keeps⟩ := substitution 1 1 0
  have run : (doubledVariable.substitute 1 1 0).map size = .ok 31 := by decide +kernel
  obtain ⟨h', e, es⟩ := map_eq_ok_iff.1 run
  exact ⟨h', e, es, e ▸ stable, keeps h' e⟩

end WeakHead.Heap

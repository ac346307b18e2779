import WeakHead.Proofs.Heap.Alike.Compaction
import WeakHead.Proofs.Heap.Correspondence

/-!
# Compaction is an isomorphism

`Carried` tells what a compaction has done, one rule for each kind of move, and what it does to the
new heap is proved along it: old moves stay, parts are moved before their wholes, and nothing is
moved that the root does not reach. So the live nodes and the nodes of the new heap are the same, up
to their slots.

A second compaction meets the nodes of the new heap in the order of their slots (`Retraces`), and so
changes nothing.

Main statement: `compact_isomorphic`.
-/

namespace WeakHead

namespace Compaction

variable {h : Heap} {slot part fn arg fresh : Slot} {node : Node} {c c' c₁ c₂ : Compaction}
  {depth : Nat}

/-- How a compaction goes on from `c` to `c'` by carrying `slot`, whose new slot is `fresh` then. -/
inductive Carried (h : Heap) : Compaction → Slot → Compaction → Slot → Prop where
  | moved {c : Compaction} {slot fresh : Slot} :
    c.newSlot? slot = some fresh →
    Carried h c slot c fresh
  | leaf {c : Compaction} {slot : Slot} {node : Node} :
    c.newSlot? slot = none →
    h.get slot = .ok node →
    node.parts = [] →
    Carried h c slot (c.move slot (node.rename id)).1 c.target.size
  | one {c c₁ : Compaction} {slot part fresh : Slot} {node : Node} :
    c.newSlot? slot = none →
    h.get slot = .ok node →
    node.parts = [part] →
    Carried h c part c₁ fresh →
    Carried h c slot (c₁.move slot (node.rename fun _ => fresh)).1 c₁.target.size
  | app {c c₁ c₂ : Compaction} {slot fn arg freshF freshA : Slot} :
    c.newSlot? slot = none →
    h.get slot = .ok (.app fn arg) →
    Carried h c fn c₁ freshF →
    Carried h c₁ arg c₂ freshA →
    Carried h c slot (c₂.move slot (.app freshF freshA)).1 c₂.target.size

/-- Carrying a slot goes by the cases of `Carried`. -/
lemma carried_of_carry (e : carry h depth c slot = .ok (c', fresh)) :
    Carried h c slot c' fresh := by
  induction depth generalizing c c' slot fresh with
  | zero => cases e
  | succ depth ih =>
    cases hn : c.newSlot? slot with
    | some fresh' =>
      rw [carry_of_moved hn] at e
      cases e
      exact .moved hn
    | none =>
      cases hg : h.get slot with
      | error fault =>
        rw [carry, hn] at e
        change (h.get slot >>= _) = _ at e
        rw [hg] at e
        cases e
      | ok node =>
        rcases node.parts_cases with hp | ⟨part, hp⟩ | ⟨fn, arg, rfl⟩
        · rw [carry_leaf hg hp hn] at e
          cases e
          exact .leaf hn hg hp
        · rw [carry_one hg hp hn] at e
          obtain ⟨⟨c₁, fresh₁⟩, e₁, e⟩ := map_eq_ok_iff.1 e
          cases e
          exact .one hn hg hp (ih e₁)
        · rw [carry_app hg hn] at e
          obtain ⟨⟨c₁, freshF⟩, e₁, e⟩ := bind_eq_ok_iff.1 e
          obtain ⟨⟨c₂, freshA⟩, e₂, e⟩ := map_eq_ok_iff.1 e
          cases e
          exact .app hn hg (ih e₁) (ih e₂)

/-- A node that is moved is put at the end of the new heap. -/
@[simp] lemma target_move (c : Compaction) (slot node) :
    (c.move slot node).1.target = c.target.push node :=
  rfl

lemma size_move (c : Compaction) (slot node) :
    (c.move slot node).1.target.size = c.target.size + 1 :=
  Heap.size_push c.target node

lemma keeps_move (c : Compaction) (slot node) :
    Heap.Keeps c.target (c.move slot node).1.target ∅ :=
  Heap.keeps_push c.target node ∅

lemma get_move_self (c : Compaction) (slot node) :
    (c.move slot node).1.target.get c.target.size = .ok node :=
  Heap.get_push_size c.target node

/-- New slots are known in the compaction that has them, and parts stand before their wholes. -/
structure Ordered (c : Compaction) : Prop where
  newSlot_lt : ∀ ⦃x y⦄, c.newSlot? x = some y → y < c.target.size
  parts_lt : ∀ ⦃x node⦄, c.target.get x = .ok node → ∀ part ∈ node.parts, part < x

lemma ordered_start (h : Heap) : (start h).Ordered := by
  refine ⟨fun x y e => ?_, fun x node hg => ?_⟩
  · rw [newSlot?_start] at e
    cases e
  · exact absurd (Heap.lt_size_of_get_eq_ok hg) (Nat.not_lt_zero x)

/-- A node may be moved behind its parts. -/
lemma Ordered.move (od : c.Ordered) (slot) (lt : ∀ part ∈ node.parts, part < c.target.size) :
    (c.move slot node).1.Ordered ∧ c.target.size < (c.move slot node).1.target.size := by
  have es := size_move c slot node
  refine ⟨⟨fun x y e => ?_, fun x node' hg part hm => ?_⟩, by rw [es]; exact Nat.lt_succ_self _⟩
  · rw [es]
    cases newSlot?_move_eq_some e with
    | inl eq => exact Nat.lt_succ_of_le (Nat.le_of_eq eq.2)
    | inr e => exact Nat.lt_succ_of_lt (od.newSlot_lt e)
  · have hx := Heap.lt_size_of_get_eq_ok hg
    rw [es] at hx
    rw [target_move] at hg
    cases Nat.lt_succ_iff_lt_or_eq.1 hx with
    | inl lt' =>
      rw [Heap.get_push_of_lt node lt'] at hg
      exact od.parts_lt hg part hm
    | inr ex =>
      rw [ex, Heap.get_push_size] at hg
      cases hg
      exact ex ▸ lt part hm

/-- The node that is moved last reaches itself, and what its parts reach. -/
lemma reaches_move {y} (sub : y < c.target.size → ∃ part ∈ node.parts, c.target.Reaches part y)
    (lt : y < (c.move slot node).1.target.size) :
    (c.move slot node).1.target.Reaches c.target.size y := by
  have es := size_move c slot node
  cases Nat.lt_succ_iff_lt_or_eq.1 (es ▸ lt) with
  | inl lt' =>
    obtain ⟨part, hm, hr⟩ := sub lt'
    obtain ⟨i, hp⟩ := List.mem_iff_getElem?.1 hm
    exact (hr.grow (keeps_move c slot node)).of_part (get_move_self c slot node) hp
  | inr e =>
    rw [e]
    exact Heap.reaches_self (e ▸ lt)

namespace Carried

lemma keeps (ca : Carried h c slot c' fresh) : Heap.Keeps c.target c'.target ∅ := by
  induction ca with
  | moved _ => exact .refl _ _
  | leaf _ _ _ => exact keeps_move _ _ _
  | one _ _ _ _ ih => exact ih.trans (keeps_move _ _ _) (.refl _ _)
  | app _ _ _ _ ihf iha => exact (ihf.trans iha (.refl _ _)).trans (keeps_move _ _ _) (.refl _ _)

/-- Carrying a slot puts all parts before their wholes. -/
lemma ordered (ca : Carried h c slot c' fresh) (od : c.Ordered) :
    c'.Ordered ∧ fresh < c'.target.size := by
  induction ca with
  | moved e => exact ⟨od, od.newSlot_lt e⟩
  | leaf _ _ hp =>
    refine od.move _ ?_
    rw [Node.parts_rename, hp]
    exact nofun
  | one _ _ hp _ ih =>
    obtain ⟨od₁, lt⟩ := ih od
    refine od₁.move _ fun part hm => ?_
    rw [Node.parts_rename, hp] at hm
    cases List.mem_singleton.1 hm
    exact lt
  | app _ _ _ caa ihf iha =>
    obtain ⟨od₁, ltF⟩ := ihf od
    obtain ⟨od₂, ltA⟩ := iha od₁
    refine od₂.move _ fun part hm => ?_
    cases List.mem_pair.1 hm with
    | inl e => exact e ▸ ltF.trans_le caa.keeps.size_le
    | inr e => exact e ▸ ltA

/-- A node that is met for the first time is moved last. -/
lemma fresh_eq (ca : Carried h c slot c' fresh) (hn : c.newSlot? slot = none) :
    fresh + 1 = c'.target.size := by
  cases ca with
  | moved e => cases hn.symm.trans e
  | leaf _ _ _ => exact (size_move _ _ _).symm
  | one _ _ _ _ => exact (size_move _ _ _).symm
  | app _ _ _ _ => exact (size_move _ _ _).symm

/-- Everything that was moved on the way is reached from the slot that was carried. -/
lemma reaches (ca : Carried h c slot c' fresh) {y} (le : c.target.size ≤ y)
    (lt : y < c'.target.size) : c'.target.Reaches fresh y := by
  induction ca with
  | moved _ => exact absurd lt (Nat.not_lt.2 le)
  | leaf _ _ _ => exact reaches_move (fun lt' => absurd le (Nat.not_le_of_lt lt')) lt
  | one _ _ hp _ ih =>
    refine reaches_move (fun lt' => ⟨_, ?_, ih le lt'⟩) lt
    rw [Node.parts_rename, hp]
    exact List.mem_cons_self
  | @app c c₁ c₂ _ _ _ _ _ _ _ _ caa ihf iha =>
    refine reaches_move (fun lt' => ?_) lt
    by_cases hy : y < c₁.target.size
    · exact ⟨_, List.mem_cons_self, (ihf le hy).grow caa.keeps⟩
    · exact ⟨_, List.mem_cons_of_mem _ List.mem_cons_self, iha (Nat.le_of_not_lt hy) lt'⟩

end Carried

/-! ### Once more -/

/-- A compaction that has moved the first `n` slots of a heap, each to the place that it had. -/
structure Retraces (h : Heap) (n : Nat) (c : Compaction) : Prop where
  table_size : c.newSlots.size = h.size
  newSlot_eq : ∀ x, c.newSlot? x = if x < n then some x else none
  target_size : c.target.size = n
  get_eq : ∀ ⦃x⦄, x < n → c.target.get x = h.get x

lemma retraces_start (h : Heap) : Retraces h 0 (start h) :=
  ⟨Array.size_replicate, newSlot?_start h, rfl, fun x hx => absurd hx (Nat.not_lt_zero x)⟩

namespace Retraces

variable {n : Nat}

lemma newSlot_none (rt : Retraces h n c) {x} (le : n ≤ x) : c.newSlot? x = none := by
  rw [rt.newSlot_eq, if_neg (Nat.not_lt.2 le)]

/-- The node that is next in the heap moves to the place that it had. -/
lemma move (rt : Retraces h n c) (hg : h.get n = .ok node) :
    Retraces h (n + 1) (c.move n node).1 := by
  have es := rt.target_size
  refine ⟨(Array.size_setIfInBounds ..).trans rt.table_size, fun x => ?_, ?_, fun x hx => ?_⟩
  · by_cases ex : x = n
    · rw [ex, newSlot?_move_self (rt.table_size ▸ Heap.lt_size_of_get_eq_ok hg), es,
        if_pos (Nat.lt_succ_self n)]
    · have iff : x < n + 1 ↔ x < n := by rw [Nat.lt_succ_iff_lt_or_eq, or_iff_left ex]
      rw [newSlot?_move_of_ne ex, rt.newSlot_eq]
      simp only [iff]
  · rw [size_move, es]
  · rw [target_move]
    cases Nat.lt_succ_iff_lt_or_eq.1 hx with
    | inl lt => rw [Heap.get_push_of_lt node (es.symm ▸ lt), rt.get_eq lt]
    | inr ex => rw [ex, hg, ← es, Heap.get_push_size]

lemma move_eq (rt : Retraces h n c) (node) : c.move n node = ((c.move n node).1, n) :=
  Prod.ext rfl rt.target_size

/-- When all slots have been moved nothing has changed. -/
lemma target_eq (rt : Retraces h h.size c) : c.target = h := by
  refine Heap.eq_of_get_eq rt.target_size fun x => ?_
  by_cases hx : x < h.size
  · exact rt.get_eq hx
  · have le := Nat.le_of_not_lt hx
    rw [Heap.get_eq_error_of_le le, Heap.get_eq_error_of_le (rt.target_size.trans_le le),
      rt.target_size]

end Retraces

/-- What was carried once is met in the order of its slots when it is carried again. -/
lemma Carried.again (ca : Carried h c slot c' fresh) {h' : Heap} {d : Compaction}
    (od : c.Ordered) (kp : Heap.Keeps c'.target h' ∅) (rt : Retraces h' c.target.size d)
    (en : h'.EndsWithin depth fresh) :
    ∃ d', carry h' depth d fresh = .ok (d', fresh) ∧ Retraces h' c'.target.size d' := by
  -- Wherever the first compaction stood, the second has retraced what was moved by then.
  induction ca generalizing d depth with
  | moved e =>
    obtain ⟨depth, rfl⟩ := en.depth_eq_succ
    refine ⟨d, carry_of_moved ?_ depth, rt⟩
    rw [rt.newSlot_eq, if_pos (od.newSlot_lt e)]
  | @leaf c slot node _ _ hp =>
    obtain ⟨depth, rfl⟩ := en.depth_eq_succ
    have hg := kp.get_ok (get_move_self c slot _) (Finset.notMem_empty _)
    have hp' : (node.rename id).parts = [] := by rw [Node.parts_rename, hp, List.map_nil]
    rw [size_move]
    refine ⟨_, ?_, rt.move hg⟩
    rw [carry_leaf hg hp' (rt.newSlot_none (Nat.le_refl _)), Node.rename_id]
    exact congrArg _ (rt.move_eq _)
  | @one c c₁ slot part fresh node _ _ hp ca ih =>
    obtain ⟨depth, rfl⟩ := en.depth_eq_succ
    have hg := kp.get_ok (get_move_self c₁ slot _) (Finset.notMem_empty _)
    have hp' : (node.rename fun _ => fresh).parts = [fresh] := by
      rw [Node.parts_rename, hp, List.map_singleton]
    obtain ⟨d₁, e₁, rt₁⟩ := ih od ((keeps_move c₁ slot _).trans kp (.refl _ _)) rt
      (en.part hg (hp' ▸ List.mem_cons_self))
    rw [size_move]
    refine ⟨_, ?_, rt₁.move hg⟩
    rw [carry_one hg hp' (rt.newSlot_none ca.keeps.size_le), e₁]
    exact congrArg _ ((congrArg _ (Node.rename_rename _ _ node)).trans (rt₁.move_eq _))
  | @app c c₁ c₂ slot _ _ freshF freshA _ _ caf caa ihf iha =>
    obtain ⟨depth, rfl⟩ := en.depth_eq_succ
    have hg := kp.get_ok (get_move_self c₂ slot (.app freshF freshA)) (Finset.notMem_empty _)
    have kp₂ := (keeps_move c₂ slot _).trans kp (.refl _ _)
    obtain ⟨d₁, e₁, rt₁⟩ := ihf od (caa.keeps.trans kp₂ (.refl _ _)) rt
      (en.part hg List.mem_cons_self)
    obtain ⟨d₂, e₂, rt₂⟩ := iha (caf.ordered od).1 kp₂ rt₁
      (en.part hg (List.mem_cons_of_mem _ List.mem_cons_self))
    rw [size_move]
    refine ⟨_, ?_, rt₂.move hg⟩
    rw [carry_app hg (rt.newSlot_none (caf.keeps.trans caa.keeps (.refl _ _)).size_le), e₁]
    show (carry h' depth d₁ freshA).map _ = _
    rw [e₂]
    exact congrArg _ (rt₂.move_eq _)

end Compaction

namespace Graph

open Compaction

variable {g : Graph}

/-- The renaming takes the live nodes of a graph to all nodes of another, one to one, and each node
keeps its kind, its name or index, and its parts. -/
structure IsomorphicBy (ρ : Slot → Slot) (g g' : Graph) : Prop where
  root : ρ g.root = g'.root
  bijOn : Set.BijOn ρ g.live (Set.Iio g'.heap.size)
  get : ∀ x ∈ g.live, ∀ node, g.heap.get x = .ok node → g'.heap.get (ρ x) = .ok (node.rename ρ)

/-- Parts stand before their wholes, and the root stands last. -/
structure Postordered (g : Graph) : Prop where
  parts_lt : ∀ x node, g.heap.get x = .ok node → ∀ part ∈ node.parts, part < x
  root_last : g.root + 1 = g.heap.size

/-! ### Counting -/

lemma IsomorphicBy.ncard_live {ρ g'} (iso : IsomorphicBy ρ g g') :
    g.live.ncard = g'.heap.size := by
  rw [← iso.bijOn.injOn.ncard_image, iso.bijOn.image_eq, ← Finset.coe_Iio,
    Set.ncard_coe_finset, Nat.card_Iio]

lemma ncard_live_le (g : Graph) : g.live.ncard ≤ g.heap.size := by
  have sub : g.live ⊆ ↑(Finset.range g.heap.size) := fun x hx =>
    Finset.mem_coe.2 (Finset.mem_range.2 (Heap.Reaches.lt_size hx))
  have le := Set.ncard_le_ncard sub (Finset.finite_toSet _)
  rwa [Set.ncard_coe_finset, Finset.card_range] at le

lemma Postordered.endsWithin (po : g.Postordered) : g.heap.EndsWithin g.heap.size g.root := by
  have hs : g.root < g.heap.size := po.root_last ▸ Nat.lt_succ_self g.root
  refine Heap.endsWithin_of_acyclic (fun x hx => ?_)
    (fun x _ => Heap.acyclic_of_parts_lt po.parts_lt x) hs
  obtain ⟨node, hg⟩ := Heap.exists_get_of_lt hx.lt_size
  exact ⟨node, hg, fun part hm => (po.parts_lt x node hg part hm).trans hx.lt_size⟩

/-! ### The whole compaction -/

/-- If the live nodes of a graph are in the heap and none is part of itself, compaction is an
isomorphism onto them: whatever is shared stays shared, and nothing else is. The root stands for the
same term, parts are moved before their wholes and the root last, the live nodes are counted and the
rest is freed; and to compact once more changes nothing. -/
theorem compact_isomorphic (hs : g.root < g.heap.size)
    (inside : ∀ x ∈ g.live, ∀ node, g.heap.get x = .ok node →
      ∀ part ∈ node.parts, part < g.heap.size)
    (acyclic : ∀ x ∈ g.live, ∀ path, g.heap.follow x path = some x → path = []) :
    ∃ c ρ, g.compact = .ok c ∧ IsomorphicBy ρ g c.graph ∧
      (∀ t, c.graph.heap.Unfolds c.graph.root t ↔ g.heap.Unfolds g.root t) ∧
      (∀ t, c.graph.heap.UnfoldsNamed c.graph.root t ↔ g.heap.UnfoldsNamed g.root t) ∧
      c.graph.Postordered ∧
      c.live = c.graph.heap.size ∧ c.live = g.live.ncard ∧ c.live + c.freed = g.heap.size ∧
      c.graph.compact = .ok ⟨c.graph, c.live, 0⟩ := by
  have en : g.heap.EndsWithin g.heap.size g.root := by
    refine Heap.endsWithin_of_acyclic (fun x hx => ?_) acyclic hs
    obtain ⟨node, hg⟩ := Heap.exists_get_of_lt hx.lt_size
    exact ⟨node, hg, inside x hx node hg⟩
  obtain ⟨c, fresh, e, ca, er⟩ :=
    (sound_start g.heap).carry_ok (en.mono (Nat.le_succ g.heap.size))
  have cd := carried_of_carry e
  have al := ca.sound.alike
  obtain ⟨ρ, eq⟩ := exists_renaming (R := fun x y => c.newSlot? x = some y)
    fun x y y' r r' => al.right_unique r r'
  -- All slots of the new heap were moved on the way from the root, so all of them are live.
  have live_eq : {y | c.target.Reaches fresh y} = Set.Iio c.target.size :=
    Set.ext fun y => ⟨fun hr => hr.lt_size, fun lt => cd.reaches (Nat.zero_le y) lt⟩
  have iso : IsomorphicBy ρ g ⟨c.target, fresh⟩ := by
    refine ⟨eq _ _ er, live_eq ▸ al.bijOn_reaches er eq, fun x hx node hg => ?_⟩
    obtain ⟨node', hg', na⟩ := al.exists_node (al.rel_of_reaches er eq hx).1 hg
    rw [hg', na.eq_rename eq]
  have po : Postordered ⟨c.target, fresh⟩ :=
    ⟨(cd.ordered (ordered_start g.heap)).1.parts_lt, cd.fresh_eq (newSlot?_start g.heap g.root)⟩
  obtain ⟨d, e', rt⟩ := cd.again (ordered_start g.heap) (.refl c.target ∅)
    (retraces_start c.target) (po.endsWithin.mono (Nat.le_succ c.target.size))
  refine ⟨_, ρ, compact_of_carry e, iso, fun t => ⟨fun un => al.symm.unfolds un er,
    fun un => al.unfolds un er⟩, fun t => ⟨fun un => al.symm.unfoldsNamed un er,
    fun un => al.unfoldsNamed un er⟩, po, rfl, iso.ncard_live.symm, ?_, ?_⟩
  · exact Nat.add_sub_of_le (iso.ncard_live ▸ ncard_live_le g)
  · have again := compact_of_carry (g := ⟨c.target, fresh⟩) e'
    rwa [rt.target_eq, Nat.sub_self] at again

/-- A graph with nodes of both kinds, two of them shared, and two nodes that are not live. -/
theorem compact_isomorphic_shared :
    let g : Graph := ⟨⟨#[.idx 7, .var "x", .app 1 1, .idx 0, .lam 3, .abs "y" 2, .app 5 4,
      .app 6 2, .lam 0]⟩, 7⟩
    ∃ c ρ, g.compact = .ok c ∧ IsomorphicBy ρ g c.graph ∧ c.graph.heap.nodes =
        #[.var "x", .app 0 0, .abs "y" 1, .idx 0, .lam 3, .app 2 4, .app 5 1] ∧
      g.live.ncard = 7 ∧ c.freed = 2 ∧ c.graph.compact = .ok ⟨c.graph, 7, 0⟩ := by
  intro g
  have result : g.compact.map (fun c => (c.graph.heap.nodes, c.live, c.freed)) =
      .ok (#[.var "x", .app 0 0, .abs "y" 1, .idx 0, .lam 3, .app 2 4, .app 5 1], 7, 2) := by
    decide +kernel
  have parts : ∀ x < 9, ∀ node ∈ g.heap.nodes[x]?, ∀ part ∈ node.parts, part < x := by decide
  have parts_lt : ∀ x node, g.heap.get x = .ok node → ∀ part ∈ node.parts, part < x :=
    fun x node hg => parts x (Heap.lt_size_of_get_eq_ok hg) node (Heap.get_eq_ok_iff.1 hg)
  obtain ⟨c, ρ, e, iso, -, -, -, -, live, -, again⟩ := compact_isomorphic (g := g) (by decide)
    (fun x hx node hg part hm => (parts_lt x node hg part hm).trans (Heap.Reaches.lt_size hx))
    fun x _ => Heap.acyclic_of_parts_lt parts_lt x
  obtain ⟨c', e', result⟩ := map_eq_ok_iff.1 result
  cases e.symm.trans e'
  obtain ⟨en, result⟩ := Prod.mk.inj result
  obtain ⟨el, ef⟩ := Prod.mk.inj result
  rw [el] at live again
  exact ⟨c, ρ, e, iso, en, live.symm, ef, again⟩

end Graph

end WeakHead

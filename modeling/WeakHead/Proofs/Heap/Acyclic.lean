import WeakHead.Proofs.Heap.Resolution

/-!
# Slots that are not part of themselves

Where no path comes round to where it was and no part dangles, every way down comes to an end, and
it ends before it has met more nodes than there are. So a slot below which all nodes have names
stands for a term, however much is shared, and no walk over that term is cut short.
-/

namespace WeakHead.Heap

variable {h : Heap} {slot : Slot} {depth : Nat}

/-! ### Paths that go on -/

lemma reaches_self (hs : slot < h.size) : h.Reaches slot slot :=
  ⟨[], if_pos hs⟩

lemma Reaches.trans {x y} (hr : h.Reaches slot x) (hr' : h.Reaches x y) : h.Reaches slot y := by
  obtain ⟨p, e⟩ := hr
  obtain ⟨q, e'⟩ := hr'
  exact ⟨p ++ q, by rw [follow_append e, e']⟩

lemma Reaches.lt_size {x} (hr : h.Reaches slot x) : x < h.size := by
  obtain ⟨p, e⟩ := hr
  exact lt_size_of_follow e

lemma exists_follow_part {x node part} (hg : h.get x = .ok node) (hm : part ∈ node.parts)
    (hp : part < h.size) : ∃ i : Nat, h.follow x [i] = some part := by
  obtain ⟨i, hi⟩ := List.mem_iff_getElem?.1 hm
  refine ⟨i, ?_⟩
  rw [follow_cons hg, hi, Option.bind_some, follow, if_pos hp]

/-- Where all parts stand before their wholes, a path only goes down. -/
lemma le_of_follow (parts : ∀ x node, h.get x = .ok node → ∀ part ∈ node.parts, part < x) {p x}
    (e : h.follow slot p = some x) : x + p.length ≤ slot := by
  induction p generalizing slot with
  | nil =>
    obtain ⟨node, hg⟩ := exists_get_of_follow e
    rw [follow_nil hg] at e
    cases e
    exact Nat.le_refl _
  | cons i p ih =>
    obtain ⟨node, hg⟩ := exists_get_of_follow e
    rw [follow_cons hg, Option.bind_eq_some_iff] at e
    obtain ⟨part, hp, e⟩ := e
    exact Nat.lt_of_le_of_lt (ih e) (parts slot node hg part (List.mem_of_getElem? hp))

/-- If the parts of all nodes stand before them, lookups find it so. -/
lemma parts_lt_of_nodes
    (all : ∀ x (hx : x < h.nodes.size), ∀ part ∈ h.nodes[x].parts, part < x) :
    ∀ x node, h.get x = .ok node → ∀ part ∈ node.parts, part < x := by
  intro x node hg
  obtain ⟨hx, rfl⟩ := Array.getElem?_eq_some_iff.1 (get_eq_ok_iff.1 hg)
  exact all x hx

lemma acyclic_of_parts_lt
    (parts : ∀ x node, h.get x = .ok node → ∀ part ∈ node.parts, part < x) : h.Acyclic := by
  intro x p e
  have le : x + p.length ≤ x + 0 := le_of_follow parts e
  exact List.length_eq_zero_iff.1 (Nat.le_zero.1 (Nat.le_of_add_le_add_left le))

/-! ### Ways down -/

/-- Every way down from the slot stays in the heap and meets at most `depth` nodes. -/
def EndsWithin (h : Heap) : (depth : Nat) → Slot → Prop
  | 0, _ => False
  | depth + 1, slot =>
    ∃ node, h.get slot = .ok node ∧ ∀ part ∈ node.parts, h.EndsWithin depth part

/-- The slots `met` are on ways to `x`. -/
def LeadTo (h : Heap) (met : Finset Slot) (x : Slot) : Prop :=
  ∀ y ∈ met, y < h.size ∧ ∃ path, path ≠ [] ∧ h.follow y path = some x

/-- What leads to a node leads to its parts, and so does the node. -/
lemma LeadTo.part {met : Finset Slot} {x node part} (ld : h.LeadTo met x) (hg : h.get x = .ok node)
    (hm : part ∈ node.parts) (hp : part < h.size) : h.LeadTo (insert x met) part := by
  obtain ⟨i, ei⟩ := exists_follow_part hg hm hp
  intro y hy
  cases Finset.mem_insert.1 hy with
  | inl e => exact e ▸ ⟨lt_size_of_get_eq_ok hg, [i], List.cons_ne_nil i [], ei⟩
  | inr hy =>
    obtain ⟨hs, path, ne, e⟩ := ld y hy
    exact ⟨hs, path ++ [i], by simp, by rw [follow_append e, ei]⟩

section

variable
  (inside : ∀ x, h.Reaches slot x → ∃ node, h.get x = .ok node ∧ ∀ part ∈ node.parts, part < h.size)
  (acyclic : ∀ x, h.Reaches slot x → ∀ path, h.follow x path = some x → path = [])

include acyclic in
/-- A slot that is reached is none of those that lead to it, for want of cycles. -/
lemma LeadTo.notMem {met : Finset Slot} {x} (ld : h.LeadTo met x) (hx : h.Reaches slot x) :
    x ∉ met := by
  intro hm
  obtain ⟨-, path, ne, e⟩ := ld x hm
  exact ne (acyclic x hx path e)

include inside acyclic

/-- If all but `depth` slots lead to `x`, every way down from there ends after `depth` nodes. -/
lemma LeadTo.endsWithin {met : Finset Slot} {x} (ld : h.LeadTo met x) (hx : h.Reaches slot x)
    (hc : met.card + depth = h.size) : h.EndsWithin depth x := by
  induction depth generalizing x met with
  | zero =>
    -- All slots lead to `x`, and `x` is one of them.
    have old : met ⊆ Finset.range h.size := fun y hy => Finset.mem_range.2 (ld y hy).1
    have sub := Finset.insert_subset (Finset.mem_range.2 hx.lt_size) old
    have le := Finset.card_le_card sub
    rw [Finset.card_insert_of_notMem (ld.notMem acyclic hx), Finset.card_range] at le
    omega
  | succ depth ih =>
    -- A part has one slot more that leads to it, so the induction is on the slots that do not.
    obtain ⟨node, hg, hp⟩ := inside x hx
    refine ⟨node, hg, fun part hm => ?_⟩
    obtain ⟨i, ei⟩ := exists_follow_part hg hm (hp part hm)
    refine ih (ld.part hg hm (hp part hm)) (hx.trans ⟨[i], ei⟩) ?_
    rw [Finset.card_insert_of_notMem (ld.notMem acyclic hx)]
    omega

/-- Without cycles no way down meets more nodes than there are. -/
lemma endsWithin_of_acyclic (hs : slot < h.size) : h.EndsWithin h.size slot := by
  have ld : h.LeadTo ∅ slot := fun y hy => absurd hy (Finset.notMem_empty y)
  exact ld.endsWithin inside acyclic (reaches_self hs) (Nat.zero_add h.size)

end

lemma EndsWithin.mono {depth'} (en : h.EndsWithin depth slot) (le : depth ≤ depth') :
    h.EndsWithin depth' slot := by
  induction depth generalizing slot depth' with
  | zero => exact absurd en id
  | succ depth ih =>
    obtain ⟨node, hg, en⟩ := en
    obtain ⟨depth', rfl⟩ := Nat.exists_eq_add_one.2 (Nat.lt_of_lt_of_le depth.succ_pos le)
    exact ⟨node, hg, fun part hm => ih (en part hm) (Nat.le_of_succ_le_succ le)⟩

lemma EndsWithin.depth_eq_succ (en : h.EndsWithin depth slot) : ∃ d, depth = d + 1 := by
  cases depth with
  | zero => exact absurd en id
  | succ depth => exact ⟨depth, rfl⟩

lemma EndsWithin.part (en : h.EndsWithin (depth + 1) slot) {node part} (hg : h.get slot = .ok node)
    (hm : part ∈ node.parts) : h.EndsWithin depth part := by
  obtain ⟨node', hg', en⟩ := en
  cases hg.symm.trans hg'
  exact en part hm

/-- Behind a path there are as many nodes less to meet as the path has steps. -/
lemma EndsWithin.of_follow {x} (en : h.EndsWithin depth slot) {p} (e : h.follow slot p = some x) :
    ∃ rest, rest + p.length = depth ∧ h.EndsWithin rest x := by
  induction p generalizing depth slot with
  | nil =>
    obtain ⟨node, hg⟩ := exists_get_of_follow e
    rw [follow_nil hg] at e
    cases e
    exact ⟨depth, rfl, en⟩
  | cons i p ih =>
    cases depth with
    | zero => exact absurd en id
    | succ depth =>
      obtain ⟨node, hg, en⟩ := en
      rw [follow_cons hg, Option.bind_eq_some_iff] at e
      obtain ⟨part, hp, e⟩ := e
      obtain ⟨rest, eq, en'⟩ := ih (en part (List.mem_of_getElem? hp)) e
      exact ⟨rest, congrArg (· + 1) eq, en'⟩

/-- Where all ways down end, none comes round. -/
lemma EndsWithin.eq_nil_of_follow (en : h.EndsWithin depth slot) {p}
    (e : h.follow slot p = some slot) : p = [] := by
  induction depth using Nat.strong_induction_on with
  | _ depth ih =>
    obtain ⟨rest, eq, en'⟩ := en.of_follow e
    cases p with
    | nil => rfl
    | cons i p => exact ih rest (by rw [List.length_cons] at eq; omega) en'

/-- No part of a node leads back to it. -/
lemma EndsWithin.not_part_reaches (en : h.EndsWithin depth slot) {node part}
    (hg : h.get slot = .ok node) (hm : part ∈ node.parts) : ¬ h.Reaches part slot := by
  rintro ⟨p, e⟩
  obtain ⟨i, hp⟩ := List.mem_iff_getElem?.1 hm
  have e' : h.follow slot (i :: p) = some slot := by rw [follow_cons hg, hp, Option.bind_some, e]
  cases en.eq_nil_of_follow e'

/-! ### Terms with names -/

/-- The slot holds a node with names, and the parts of that node are in the heap. -/
def HoldsNames (h : Heap) (slot : Slot) : Prop :=
  (∃ name, h.get slot = .ok (.var name)) ∨
    (∃ binder body, h.get slot = .ok (.abs binder body) ∧ body < h.size) ∨
      ∃ fn arg, h.get slot = .ok (.app fn arg) ∧ fn < h.size ∧ arg < h.size

lemma HoldsNames.parts_lt (hn : h.HoldsNames slot) :
    ∃ node, h.get slot = .ok node ∧ ∀ part ∈ node.parts, part < h.size := by
  rcases hn with ⟨name, hg⟩ | ⟨binder, body, hg, hb⟩ | ⟨fn, arg, hg, hf, ha⟩
  · exact ⟨_, hg, by simp [Node.parts]⟩
  · exact ⟨_, hg, by simpa [Node.parts] using hb⟩
  · exact ⟨_, hg, by simpa [Node.parts] using ⟨hf, ha⟩⟩

/-- A slot that reaches only nodes with names stands for a term with names. -/
lemma EndsWithin.exists_unfoldsNamed (en : h.EndsWithin depth slot)
    (named : ∀ x, h.Reaches slot x → h.HoldsNames x) :
    ∃ t, h.UnfoldsNamed slot t ∧ t.height ≤ depth := by
  induction depth generalizing slot with
  | zero => exact absurd en id
  | succ depth ih =>
    obtain ⟨node, hg, en⟩ := en
    have sub : ∀ (i : Nat) part, node.parts[i]? = some part →
        ∃ t, h.UnfoldsNamed part t ∧ t.height ≤ depth := fun i part hp =>
      ih (en part (List.mem_of_getElem? hp)) fun x hr => named x (hr.of_part hg hp)
    rcases named slot (reaches_self (lt_size_of_get_eq_ok hg)) with
      ⟨name, hg'⟩ | ⟨binder, body, hg', -⟩ | ⟨fn, arg, hg', -, -⟩ <;> cases hg.symm.trans hg'
    · exact ⟨_, .var hg, Nat.succ_le_succ (Nat.zero_le depth)⟩
    · obtain ⟨t, un, le⟩ := sub 0 body rfl
      exact ⟨_, .abs hg un, Nat.succ_le_succ le⟩
    · obtain ⟨t, un, le⟩ := sub 0 fn rfl
      obtain ⟨u, un', le'⟩ := sub 1 arg rfl
      exact ⟨_, .app hg un un', Nat.succ_le_succ (max_le le le')⟩

/-- A slot that reaches only nodes with names, none of which is part of itself, stands for a term,
and walks over it are deep enough. -/
lemma exists_unfoldsNamed (hs : slot < h.size) (named : ∀ x, h.Reaches slot x → h.HoldsNames x)
    (acyclic : ∀ x, h.Reaches slot x → ∀ path, h.follow x path = some x → path = []) :
    ∃ t, h.UnfoldsNamed slot t ∧ t.height ≤ h.depthBound := by
  have en := endsWithin_of_acyclic (fun x hx => (named x hx).parts_lt) acyclic hs
  obtain ⟨t, un, le⟩ := en.exists_unfoldsNamed named
  exact ⟨t, un, Nat.le_succ_of_le le⟩

end WeakHead.Heap

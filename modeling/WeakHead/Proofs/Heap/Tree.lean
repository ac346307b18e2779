import WeakHead.Heap.Unfolding
import WeakHead.Proofs.Heap.Keeping
import WeakHead.Proofs.IndexTerm.Arithmetic

/-!
# Trees in the heap

No path from a slot that stands for a term meets a slot twice, so the height of the term is bounded
by the size of the heap, however much is shared (`Unfolds.height_le`).

`TreeAt` says that a slot stands for a term, and which slots the term takes up, one for each of its
nodes. A tree whose slots were not changed stays the tree of its term (`TreeAt.frame`), so two trees
that take up no slot in common do not disturb each other.

`treeAt_iff` ties the predicate to the paths of the heap: a slot has such a tree exactly if it
unfolds to the term and no two paths from it meet. The slots of the tree are then the slots that can
be reached.
-/

namespace WeakHead.Heap

/-! ### Ways down -/

lemma Unfolds.exists_node {h : Heap} {slot t} (un : h.Unfolds slot t) :
    ∃ node, h.get slot = .ok node := by
  cases un with
  | idx hg => exact ⟨_, hg⟩
  | lam hg _ => exact ⟨_, hg⟩
  | app hg _ _ => exact ⟨_, hg⟩

lemma Unfolds.lt_size {h : Heap} {slot t} (un : h.Unfolds slot t) : slot < h.size := by
  obtain ⟨node, hg⟩ := un.exists_node
  exact lt_size_of_get_eq_ok hg

/-- There are slots enough for the nodes on a longest way down. -/
def HasWay (h : Heap) (n : Nat) : Prop :=
  ∃ S : Finset Slot, S.card = n ∧ ∀ x ∈ S, ∃ u, h.Unfolds x u ∧ u.height ≤ n

/-- A slot that stands for a higher term is none of those on the way. -/
lemma HasWay.cons {h : Heap} {slot t n} (way : HasWay h n) (un : h.Unfolds slot t)
    (e : t.height = n + 1) : HasWay h (n + 1) := by
  obtain ⟨S, ec, hS⟩ := way
  have hn : slot ∉ S := by
    intro hm
    obtain ⟨u, un', le⟩ := hS slot hm
    rw [un'.unique un, e] at le
    exact Nat.not_succ_le_self n le
  refine ⟨insert slot S, by rw [Finset.card_insert_of_notMem hn, ec], fun x hm => ?_⟩
  cases Finset.mem_insert.1 hm with
  | inl ex => exact ⟨t, ex ▸ un, Nat.le_of_eq e⟩
  | inr hm =>
    obtain ⟨u, un', le⟩ := hS x hm
    exact ⟨u, un', Nat.le_succ_of_le le⟩

lemma Unfolds.hasWay {h : Heap} {slot t} (un : h.Unfolds slot t) : HasWay h t.height := by
  induction un with
  | idx hg => exact HasWay.cons ⟨∅, rfl, nofun⟩ (.idx hg) rfl
  | lam hg unb ih => exact ih.cons (.lam hg unb) rfl
  | @app _ _ _ t u hg unf una ihf iha =>
    rcases max_choice t.height u.height with e | e <;> rw [IndexTerm.height, e]
    · exact ihf.cons (.app hg unf una) (by rw [IndexTerm.height, e])
    · exact iha.cons (.app hg unf una) (by rw [IndexTerm.height, e])

lemma Unfolds.height_le_size {h : Heap} {slot t} (un : h.Unfolds slot t) : t.height ≤ h.size := by
  obtain ⟨S, ec, hS⟩ := un.hasWay
  have sub : S ⊆ Finset.range h.size := fun x hx => by
    obtain ⟨u, unx, -⟩ := hS x hx
    exact Finset.mem_range.2 unx.lt_size
  rw [← ec, ← Finset.card_range h.size]
  exact Finset.card_le_card sub

/-- No way down is longer than the walks may go. -/
lemma Unfolds.height_le {h : Heap} {slot t} (un : h.Unfolds slot t) : t.height ≤ h.depthBound :=
  Nat.le_succ_of_le un.height_le_size

/-! ### Trees -/

/-- The slot stands for the term, and the nodes of the term take up the slots `S`, one for each. -/
inductive TreeAt (h : Heap) : Slot → IndexTerm → Finset Slot → Prop where
  | idx {slot index} :
    h.get slot = .ok (.idx index) →
    TreeAt h slot (.idx index) {slot}
  | lam {slot body t S} :
    h.get slot = .ok (.lam body) →
    TreeAt h body t S →
    slot ∉ S →
    TreeAt h slot (.lam t) (insert slot S)
  | app {slot fn arg t u S R} :
    h.get slot = .ok (.app fn arg) →
    TreeAt h fn t S →
    TreeAt h arg u R →
    slot ∉ S →
    slot ∉ R →
    Disjoint S R →
    TreeAt h slot (.app t u) (insert slot (S ∪ R))

/-! ### The slots of a tree -/

lemma TreeAt.root_mem {h : Heap} {slot t S} (tr : h.TreeAt slot t S) : slot ∈ S := by
  cases tr with
  | idx _ => exact Finset.mem_singleton_self slot
  | lam _ _ _ => exact Finset.mem_insert_self _ _
  | app _ _ _ _ _ _ => exact Finset.mem_insert_self _ _

lemma TreeAt.exists_node {h : Heap} {slot t S} (tr : h.TreeAt slot t S) :
    ∃ node, h.get slot = .ok node := by
  cases tr with
  | idx hg => exact ⟨_, hg⟩
  | lam hg _ _ => exact ⟨_, hg⟩
  | app hg _ _ _ _ _ => exact ⟨_, hg⟩

/-- All slots of a tree are in the heap. -/
lemma TreeAt.lt_size {h : Heap} {slot t S} (tr : h.TreeAt slot t S) {x} (hx : x ∈ S) :
    x < h.size := by
  induction tr with
  | idx hg =>
    rw [Finset.mem_singleton] at hx
    exact hx ▸ lt_size_of_get_eq_ok hg
  | lam hg _ _ ih =>
    cases Finset.mem_insert.1 hx with
    | inl e => exact e ▸ lt_size_of_get_eq_ok hg
    | inr hx => exact ih hx
  | app hg _ _ _ _ _ ihf iha =>
    cases Finset.mem_insert.1 hx with
    | inl e => exact e ▸ lt_size_of_get_eq_ok hg
    | inr hx =>
      cases Finset.mem_union.1 hx with
      | inl hx => exact ihf hx
      | inr hx => exact iha hx

/-- A slot with a tree unfolds to the term of the tree. -/
lemma TreeAt.unfolds {h : Heap} {slot t S} (tr : h.TreeAt slot t S) : h.Unfolds slot t := by
  induction tr with
  | idx hg => exact .idx hg
  | lam hg _ _ ih => exact .lam hg ih
  | app hg _ _ _ _ _ ihf iha => exact .app hg ihf iha

lemma TreeAt.height_le {h : Heap} {slot t S} (tr : h.TreeAt slot t S) : t.height ≤ h.depthBound :=
  tr.unfolds.height_le

/-- A tree has as many slots as its term has nodes. -/
lemma TreeAt.card_eq {h : Heap} {slot t S} (tr : h.TreeAt slot t S) : S.card = t.size := by
  induction tr with
  | idx _ => rfl
  | lam _ _ hn ih => rw [Finset.card_insert_of_notMem hn, ih, IndexTerm.size]
  | app _ _ _ hf ha hd ihf iha =>
    have hn : _ ∉ _ ∪ _ := fun hm => (Finset.mem_union.1 hm).elim hf ha
    rw [Finset.card_insert_of_notMem hn, Finset.card_union_of_disjoint hd, ihf, iha,
      IndexTerm.size]

/-- A term that stands in the heap as a tree has no more nodes than the heap. -/
lemma TreeAt.size_le {h : Heap} {slot t S} (tr : h.TreeAt slot t S) : t.size ≤ h.size := by
  have sub : S ⊆ Finset.range h.size := fun x hx => Finset.mem_range.2 (tr.lt_size hx)
  calc t.size = S.card := tr.card_eq.symm
    _ ≤ (Finset.range h.size).card := Finset.card_le_card sub
    _ = h.size := Finset.card_range _

/-- Only an abstraction is the tree of a slot with a `lam`. -/
lemma TreeAt.lam_inv {h : Heap} {slot body : Slot} {t S} (tr : h.TreeAt slot t S)
    (hg : h.get slot = .ok (.lam body)) :
    ∃ u B, t = .lam u ∧ S = insert slot B ∧ h.TreeAt body u B := by
  cases tr with
  | idx hg' => cases hg.symm.trans hg'
  | app hg' _ _ _ _ _ => cases hg.symm.trans hg'
  | lam hg' trb _ =>
    cases hg.symm.trans hg'
    exact ⟨_, _, rfl, rfl, trb⟩

/-- Only an application is the tree of a slot with an `app`. -/
lemma TreeAt.app_inv {h : Heap} {slot fn arg : Slot} {t S} (tr : h.TreeAt slot t S)
    (hg : h.get slot = .ok (.app fn arg)) :
    ∃ u v F A, t = .app u v ∧ S = insert slot (F ∪ A) ∧ h.TreeAt fn u F ∧ h.TreeAt arg v A ∧
      Disjoint F A := by
  cases tr with
  | idx hg' => cases hg.symm.trans hg'
  | lam hg' _ _ => cases hg.symm.trans hg'
  | app hg' trf tra _ _ dis =>
    cases hg.symm.trans hg'
    exact ⟨_, _, _, _, rfl, rfl, trf, tra, dis⟩

/-- A tree none of whose slots was changed stays where it is. -/
lemma TreeAt.frame {h h' : Heap} {slot t S R} (tr : h.TreeAt slot t S) (kp : Keeps h h' R)
    (dis : Disjoint S R) : h'.TreeAt slot t S := by
  induction tr with
  | idx hg =>
    rw [Finset.disjoint_singleton_left] at dis
    exact .idx (kp.get_ok hg dis)
  | lam hg _ hn ih =>
    rw [Finset.disjoint_insert_left] at dis
    exact .lam (kp.get_ok hg dis.1) (ih dis.2) hn
  | app hg _ _ hf ha hd ihf iha =>
    rw [Finset.disjoint_insert_left, Finset.disjoint_union_left] at dis
    exact .app (kp.get_ok hg dis.1) (ihf dis.2.1) (iha dis.2.2) hf ha hd

lemma TreeAt.grow {h h' : Heap} {slot t S} (tr : h.TreeAt slot t S) (kp : Keeps h h' ∅) :
    h'.TreeAt slot t S :=
  tr.frame kp (Finset.disjoint_empty_right S)

/-- The node at the start of a tree can be moved to a slot outside: the tree then starts there. -/
lemma TreeAt.moveRoot {h : Heap} {slot t S node target} (tr : h.TreeAt slot t S)
    (hg : h.get slot = .ok node) (ht : target < h.size) (hn : target ∉ S) :
    (h.put target node).TreeAt target t (insert target (S.erase slot)) := by
  -- The target is no slot of the tree, so the parts of the node do not notice the write.
  have hput := get_put_self node ht
  have kp := keeps_put h target node (Finset.mem_singleton_self target)
  cases tr with
  | idx hi =>
    rw [hg] at hi
    cases hi
    rw [Finset.erase_singleton]
    exact .idx hput
  | lam hl trb hs =>
    rw [hg] at hl
    cases hl
    rw [Finset.mem_insert, not_or] at hn
    rw [Finset.erase_insert hs]
    exact .lam hput (trb.frame kp (Finset.disjoint_singleton_right.2 hn.2)) hn.2
  | app ha trf tra hf hr hd =>
    rw [hg] at ha
    cases ha
    rw [Finset.mem_insert, Finset.mem_union, not_or, not_or] at hn
    rw [Finset.erase_insert fun hm => (Finset.mem_union.1 hm).elim hf hr]
    exact .app hput (trf.frame kp (Finset.disjoint_singleton_right.2 hn.2.1))
      (tra.frame kp (Finset.disjoint_singleton_right.2 hn.2.2)) hn.2.1 hn.2.2 hd

/-! ### Paths -/

lemma follow_nil {h : Heap} {slot node} (hg : h.get slot = .ok node) :
    h.follow slot [] = some slot := by
  rw [follow, if_pos (lt_size_of_get_eq_ok hg)]

lemma follow_cons {h : Heap} {slot node part p} (hg : h.get slot = .ok node) :
    h.follow slot (part :: p) = (node.parts[part]?).bind (h.follow · p) := by
  simp only [follow, get_eq_ok_iff.1 hg]
  cases node.parts[part]? <;> rfl

/-- A path that can be followed from a node is empty or goes on from one of its parts. -/
lemma follow_eq_some {h : Heap} {slot node p x} (hg : h.get slot = .ok node)
    (e : h.follow slot p = some x) :
    (p = [] ∧ x = slot) ∨
      ∃ (i : Nat) (part : Slot) (q : List Nat), p = i :: q ∧ node.parts[i]? = some part ∧
        h.follow part q = some x := by
  cases p with
  | nil =>
    rw [follow_nil hg] at e
    exact .inl ⟨rfl, (Option.some.inj e).symm⟩
  | cons i q =>
    rw [follow_cons hg, Option.bind_eq_some_iff] at e
    obtain ⟨part, hp, e⟩ := e
    exact .inr ⟨i, part, q, rfl, hp, e⟩

/-- A path can only be followed from a node that is there. -/
lemma exists_get_of_follow {h : Heap} {slot p x} (e : h.follow slot p = some x) :
    ∃ node, h.get slot = .ok node := by
  cases hn : h.nodes[slot]? with
  | some node => exact ⟨node, get_eq_ok_iff.2 hn⟩
  | none =>
    have hs : ¬ slot < h.size := Nat.not_lt.2 (Array.getElem?_eq_none_iff.1 hn)
    cases p with
    | nil =>
      rw [follow, if_neg hs] at e
      cases e
    | cons i p =>
      simp only [follow, hn] at e
      cases e

lemma follow_append {h : Heap} {slot p q x} (e : h.follow slot p = some x) :
    h.follow slot (p ++ q) = h.follow x q := by
  induction p generalizing slot with
  | nil =>
    obtain ⟨node, hg⟩ := exists_get_of_follow e
    rw [follow_nil hg] at e
    cases e
    rfl
  | cons i p ih =>
    obtain ⟨node, hg⟩ := exists_get_of_follow e
    rw [follow_cons hg, Option.bind_eq_some_iff] at e
    obtain ⟨part, hp, e⟩ := e
    rw [List.cons_append, follow_cons hg, hp]
    exact ih e

/-- Only slots of the heap can be reached. -/
lemma lt_size_of_follow {h : Heap} {slot p x} (e : h.follow slot p = some x) : x < h.size := by
  -- The empty path can be followed from where another path has ended.
  have ex := @follow_append h slot p [] x e
  rw [List.append_nil, e] at ex
  obtain ⟨node, hg⟩ := exists_get_of_follow ex.symm
  exact lt_size_of_get_eq_ok hg

/-- Who reaches a slot from a part reaches it from the whole. -/
lemma Reaches.of_part {h : Heap} {slot node part x} {i : Nat} (hg : h.get slot = .ok node)
    (hp : node.parts[i]? = some part) (hr : h.Reaches part x) : h.Reaches slot x := by
  -- A path from the part is one from the whole that chooses the part first.
  obtain ⟨p, e⟩ := hr
  refine ⟨i :: p, ?_⟩
  rw [follow_cons hg, hp]
  exact e

/-- The parts of what spans a tree span trees. -/
lemma SpansTree.part {h : Heap} {slot node part} {i : Nat} (sp : h.SpansTree slot)
    (hg : h.get slot = .ok node) (hp : node.parts[i]? = some part) : h.SpansTree part := by
  intro p q x ep eq
  have e := sp (i :: p) (i :: q) x
    (by rw [follow_cons hg, hp]; exact ep) (by rw [follow_cons hg, hp]; exact eq)
  exact (List.cons.inj e).2

/-- The slots of a tree are the slots that can be reached from its start. -/
lemma TreeAt.mem_iff_reaches {h : Heap} {slot t S} (tr : h.TreeAt slot t S) {x} :
    x ∈ S ↔ h.Reaches slot x := by
  induction tr with
  | @idx slot index hg =>
    rw [Finset.mem_singleton]
    constructor
    · rintro rfl
      exact ⟨[], follow_nil hg⟩
    · rintro ⟨p, e⟩
      rcases follow_eq_some hg e with ⟨-, rfl⟩ | ⟨i, part, q, -, hp, -⟩
      · rfl
      · cases hp
  | @lam slot body t S hg _ _ ih =>
    rw [Finset.mem_insert, ih]
    constructor
    · rintro (rfl | hr)
      · exact ⟨[], follow_nil hg⟩
      · exact hr.of_part hg (i := 0) rfl
    · rintro ⟨p, e⟩
      rcases follow_eq_some hg e with ⟨-, rfl⟩ | ⟨i, part, q, -, hp, e⟩
      · exact .inl rfl
      · rw [Node.parts, List.getElem?_singleton] at hp
        split at hp
        · cases hp
          exact .inr ⟨q, e⟩
        · cases hp
  | @app slot fn arg t u S R hg _ _ _ _ _ ihf iha =>
    rw [Finset.mem_insert, Finset.mem_union, ihf, iha]
    constructor
    · rintro (rfl | hr | hr)
      · exact ⟨[], follow_nil hg⟩
      · exact hr.of_part hg (i := 0) rfl
      · exact hr.of_part hg (i := 1) rfl
    · rintro ⟨p, e⟩
      rcases follow_eq_some hg e with ⟨-, rfl⟩ | ⟨i, part, q, -, hp, e⟩
      · exact .inl rfl
      · match i, hp with
        | 0, hp =>
          cases hp
          exact .inr (.inl ⟨q, e⟩)
        | 1, hp =>
          cases hp
          exact .inr (.inr ⟨q, e⟩)

/-- A slot spans a tree if its parts do, none of them leads back to it, and no two of them lead to
the same place. -/
lemma spansTree_of_parts {h : Heap} {slot node} (hg : h.get slot = .ok node)
    (sub : ∀ (i : Nat) part, node.parts[i]? = some part →
      h.SpansTree part ∧ ¬ h.Reaches part slot)
    (apart : ∀ (i j : Nat) part part' x, node.parts[i]? = some part → node.parts[j]? = some part' →
      h.Reaches part x → h.Reaches part' x → i = j) : h.SpansTree slot := by
  intro p q x ep eq
  rcases follow_eq_some hg ep with ⟨rfl, rfl⟩ | ⟨i, part, p', rfl, hp, ep⟩
  · rcases follow_eq_some hg eq with ⟨rfl, -⟩ | ⟨j, part, q', rfl, hp, eq⟩
    · rfl
    · exact absurd ⟨q', eq⟩ (sub j part hp).2
  · rcases follow_eq_some hg eq with ⟨rfl, e⟩ | ⟨j, part', q', rfl, hp', eq⟩
    · exact absurd ⟨p', e ▸ ep⟩ (sub i part hp).2
    · cases apart i j part part' x hp hp' ⟨p', ep⟩ ⟨q', eq⟩
      rw [hp] at hp'
      cases hp'
      rw [(sub i part hp).1 p' q' x ep eq]

/-- No two paths through a tree meet. -/
lemma TreeAt.spansTree {h : Heap} {slot t S} (tr : h.TreeAt slot t S) : h.SpansTree slot := by
  induction tr with
  | idx hg => exact spansTree_of_parts hg (by simp [Node.parts]) (by simp [Node.parts])
  | lam hg trb hn ih =>
    refine spansTree_of_parts hg (fun i part hp => ?_) fun i j part part' x hp hp' _ _ => ?_
    · match i, hp with
      | 0, hp =>
        cases hp
        exact ⟨ih, fun hr => hn (trb.mem_iff_reaches.2 hr)⟩
    · match i, j, hp, hp' with
      | 0, 0, _, _ => rfl
  | app hg trf tra hf ha hd ihf iha =>
    have dis : ∀ x, h.Reaches _ x → ¬ h.Reaches _ x := fun x hr hr' =>
      Finset.disjoint_left.1 hd (trf.mem_iff_reaches.2 hr) (tra.mem_iff_reaches.2 hr')
    refine spansTree_of_parts hg (fun i part hp => ?_) fun i j part part' x hp hp' hr hr' => ?_
    · match i, hp with
      | 0, hp =>
        cases hp
        exact ⟨ihf, fun hr => hf (trf.mem_iff_reaches.2 hr)⟩
      | 1, hp =>
        cases hp
        exact ⟨iha, fun hr => ha (tra.mem_iff_reaches.2 hr)⟩
    · match i, j, hp, hp' with
      | 0, 0, _, _ => rfl
      | 1, 1, _, _ => rfl
      | 0, 1, hp, hp' =>
        cases hp
        cases hp'
        exact absurd hr' (dis x hr)
      | 1, 0, hp, hp' =>
        cases hp
        cases hp'
        exact absurd hr (dis x hr')

/-- No part of what spans a tree leads back to the whole. -/
lemma SpansTree.not_part_reaches {h : Heap} {slot node part} {i : Nat} (sp : h.SpansTree slot)
    (hg : h.get slot = .ok node) (hp : node.parts[i]? = some part) : ¬ h.Reaches part slot := by
  rintro ⟨p, e⟩
  have e' := sp [] (i :: p) slot (follow_nil hg) (by rw [follow_cons hg, hp]; exact e)
  cases e'

/-- A slot that unfolds and from which no two paths meet has a tree. -/
lemma Unfolds.treeAt {h : Heap} {slot t} (un : h.Unfolds slot t) (sp : h.SpansTree slot) :
    ∃ S, h.TreeAt slot t S := by
  induction un with
  | idx hg => exact ⟨_, .idx hg⟩
  | lam hg _ ih =>
    obtain ⟨S, tr⟩ := ih (sp.part hg (i := 0) rfl)
    refine ⟨_, .lam hg tr fun hm => ?_⟩
    exact sp.not_part_reaches hg (i := 0) rfl (tr.mem_iff_reaches.1 hm)
  | app hg _ _ ihf iha =>
    obtain ⟨S, trf⟩ := ihf (sp.part hg (i := 0) rfl)
    obtain ⟨R, tra⟩ := iha (sp.part hg (i := 1) rfl)
    refine ⟨_, .app hg trf tra (fun hm => ?_) (fun hm => ?_) ?_⟩
    · exact sp.not_part_reaches hg (i := 0) rfl (trf.mem_iff_reaches.1 hm)
    · exact sp.not_part_reaches hg (i := 1) rfl (tra.mem_iff_reaches.1 hm)
    · -- A slot of both parts would be reached by a path through either.
      refine Finset.disjoint_left.2 fun x hS hR => ?_
      obtain ⟨p, ep⟩ := trf.mem_iff_reaches.1 hS
      obtain ⟨q, eq⟩ := tra.mem_iff_reaches.1 hR
      have e := sp (0 :: p) (1 :: q) x
        (by rw [follow_cons hg]; exact ep) (by rw [follow_cons hg]; exact eq)
      cases e

/-- A slot has a tree exactly if it unfolds and no two paths from it meet. -/
lemma treeAt_iff {h : Heap} {slot t} :
    (∃ S, h.TreeAt slot t S) ↔ h.Unfolds slot t ∧ h.SpansTree slot := by
  constructor
  · rintro ⟨S, tr⟩
    exact ⟨tr.unfolds, tr.spansTree⟩
  · rintro ⟨un, sp⟩
    exact un.treeAt sp

/-! ### Trees and other indices -/

/-- A tree for the same term, in heaps with other indices, has the same nodes. -/
lemma TreeAt.get_eq {h h' : Heap} {slot t S} (tr : h.TreeAt slot t S) (un : h'.Unfolds slot t)
    (re : Reindexed h h') {x} (hx : x ∈ S) : h'.get x = h.get x := by
  induction tr with
  | idx hg =>
    cases Finset.mem_singleton.1 hx
    cases un with
    | idx hg' => rw [hg, hg']
  | lam hg _ _ ih =>
    have hg' := re.get_lam hg
    cases un with
    | lam hl unb =>
      cases hg'.symm.trans hl
      cases Finset.mem_insert.1 hx with
      | inl e => rw [e, hg, hg']
      | inr hx => exact ih unb hx
  | app hg _ _ _ _ _ ihf iha =>
    have hg' := re.get_app hg
    cases un with
    | app ha unf una =>
      cases hg'.symm.trans ha
      cases Finset.mem_insert.1 hx with
      | inl e => rw [e, hg, hg']
      | inr hx =>
        cases Finset.mem_union.1 hx with
        | inl hx => exact ihf unf hx
        | inr hx => exact iha una hx

/-- Heaps with other indices are one heap if they agree outside a tree and on its term. -/
lemma TreeAt.heap_eq {h h' : Heap} {slot t S} (tr : h.TreeAt slot t S) (un : h'.Unfolds slot t)
    (re : Reindexed h h') (out : ∀ x, x ∉ S → h'.get x = h.get x) : h' = h := by
  refine eq_of_get_eq re.size_eq fun x => ?_
  by_cases hx : x ∈ S
  · exact tr.get_eq un re hx
  · exact out x hx

/-- A tree stays one, for the term that its slot stands for now. -/
lemma TreeAt.reindexed {h h' : Heap} {slot t t' S} (tr : h.TreeAt slot t S)
    (re : Reindexed h h') (un : h'.Unfolds slot t') : h'.TreeAt slot t' S := by
  induction tr generalizing t' with
  | idx hg =>
    cases un with
    | idx hg' => exact .idx hg'
    | lam hg' _ => cases hg.symm.trans (re.symm.get_lam hg')
    | app hg' _ _ => cases hg.symm.trans (re.symm.get_app hg')
  | lam hg _ hn ih =>
    have hg' := re.get_lam hg
    cases un with
    | idx hi => cases hg'.symm.trans hi
    | app ha _ _ => cases hg'.symm.trans ha
    | lam hl unb =>
      cases hg'.symm.trans hl
      exact .lam hg' (ih unb) hn
  | app hg _ _ hf ha dis ihf iha =>
    have hg' := re.get_app hg
    cases un with
    | idx hi => cases hg'.symm.trans hi
    | lam hl _ => cases hg'.symm.trans hl
    | app ha' unf una =>
      cases hg'.symm.trans ha'
      exact .app hg' (ihf unf) (iha una) hf ha dis

end WeakHead.Heap

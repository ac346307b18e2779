import Mathlib.Data.Finset.Card
import Mathlib.Order.Interval.Finset.Nat
import Mathlib.Tactic.Common
import WeakHead.Heap.Basic

/-!
# What operations on the heap keep

An operation on the heap stops with a fault or gives a new heap. `Keeps` says which slots it may
have changed, and `Within` which slots the trees that it makes may take up. `Reindexed` says that it
has changed no more than indices.
-/

namespace WeakHead

/-- Behind a result the rest is done with it. -/
lemma bind_ok {ε α β : Type} (a : α) (f : α → Except ε β) : (Except.ok a).bind f = f a :=
  rfl

/-- Two operations give a result if the first gives one with which the second does. -/
lemma bind_eq_ok_iff {ε α β : Type} {x : Except ε α} {f : α → Except ε β} {b} :
    x.bind f = .ok b ↔ ∃ a, x = .ok a ∧ f a = .ok b := by
  cases x with
  | error e => simp [Except.bind]
  | ok a => simp [Except.bind]

/-- What is made of a result comes from a result. -/
lemma map_eq_ok_iff {ε α β : Type} {x : Except ε α} {f : α → β} {b} :
    x.map f = .ok b ↔ ∃ a, x = .ok a ∧ f a = b := by
  cases x with
  | error e => simp [Except.map]
  | ok a => simp [Except.map]

/-- The nodes are the same, or both are indices. -/
def Node.SameButIndex (node node' : Node) : Prop :=
  node' = node ∨ ∃ i j, node = .idx i ∧ node' = .idx j

/-- Nodes that differ in an index at most have the same parts. -/
lemma Node.SameButIndex.parts_eq {node node' : Node} (same : node.SameButIndex node') :
    node'.parts = node.parts := by
  rcases same with rfl | ⟨i, j, rfl, rfl⟩ <;> rfl

namespace Heap

/-- The second heap has the nodes of the first, apart from those in the slots `S`, and maybe
more. -/
structure Keeps (h h' : Heap) (S : Finset Slot) : Prop where
  size_le : h.size ≤ h'.size
  get_eq : ∀ ⦃x⦄, x < h.size → x ∉ S → h'.get x = h.get x

/-- The slots `R` are among the slots `S` or come after the first `n` slots. -/
def Within (R S : Finset Slot) (n : Nat) : Prop :=
  ∀ ⦃x⦄, x ∈ R → x ∈ S ∨ n ≤ x

lemma Within.of_subset {R S : Finset Slot} (sub : R ⊆ S) (n) : Within R S n :=
  fun _ hm => .inl (sub hm)

lemma Within.refl (S n) : Within S S n :=
  fun _ hm => .inl hm

/-- Slots among more slots, or later ones, are among all of these. -/
lemma Within.trans {R S T m n} (w : Within R S m) (w' : Within S T n) (le : n ≤ m) :
    Within R T n := by
  intro x hm
  cases w hm with
  | inl hS => exact w' hS
  | inr hle => exact .inr (le.trans hle)

lemma Within.mono {R S m n} (w : Within R S m) (le : n ≤ m) : Within R S n :=
  fun _ hm => (w hm).imp_right le.trans

lemma Within.insert {R S : Finset Slot} {n} (w : Within R S n) (x : Slot) :
    Within (insert x R) (insert x S) n := by
  intro y hm
  cases Finset.mem_insert.1 hm with
  | inl e => exact .inl (e ▸ Finset.mem_insert_self x S)
  | inr hm => exact (w hm).imp_left Finset.mem_insert_of_mem

lemma Within.union {R S R' S' : Finset Slot} {n} (w : Within R S n) (w' : Within R' S' n) :
    Within (R ∪ R') (S ∪ S') n := by
  intro x hm
  cases Finset.mem_union.1 hm with
  | inl hm => exact (w hm).imp_left (Finset.mem_union_left S')
  | inr hm => exact (w' hm).imp_left (Finset.mem_union_right S)

/-- Slots among some slots and later ones have no other old slot. -/
lemma Within.notMem {R S : Finset Slot} {n x} (w : Within R S n) (hx : x < n) (hn : x ∉ S) :
    x ∉ R := by
  intro hm
  cases w hm with
  | inl hS => exact hn hS
  | inr hle => exact absurd hx (Nat.not_lt.2 hle)

/-- What avoids the old slots of a set avoids what is within it. -/
lemma Within.disjoint {R S T : Finset Slot} {n} (w : Within R S n) (dis : Disjoint S T)
    (lt : ∀ x ∈ T, x < n) : Disjoint R T :=
  Finset.disjoint_right.2 fun x hT => w.notMem (lt x hT) (Finset.disjoint_right.1 dis hT)

lemma Keeps.refl (h : Heap) (S) : Keeps h h S :=
  ⟨Nat.le_refl _, fun _ _ _ => rfl⟩

/-- Two changes after one another keep what both keep; slots that are new after the first may be
changed by the second. -/
lemma Keeps.trans {h h' h'' S S'} (kp : Keeps h h' S) (kp' : Keeps h' h'' S')
    (sub : Within S' S h.size) : Keeps h h'' S := by
  refine ⟨kp.size_le.trans kp'.size_le, fun x hx hn => ?_⟩
  rw [kp'.get_eq (Nat.lt_of_lt_of_le hx kp.size_le) (sub.notMem hx hn), kp.get_eq hx hn]

/-- A node that is not among the changed ones is still there. -/
lemma Keeps.get_ok {h h' S slot node} (kp : Keeps h h' S) (hg : h.get slot = .ok node)
    (hn : slot ∉ S) : h'.get slot = .ok node := by
  rw [kp.get_eq (lt_size_of_get_eq_ok hg) hn, hg]

lemma Keeps.mono {h h' S R} (kp : Keeps h h' S) (sub : S ⊆ R) : Keeps h h' R :=
  ⟨kp.size_le, fun _ hx hn => kp.get_eq hx fun hm => hn (sub hm)⟩

/-- Two changes after one another change what one of them changes. -/
lemma Keeps.union {h h' h'' S R} (kp : Keeps h h' S) (kp' : Keeps h' h'' R) :
    Keeps h h'' (S ∪ R) :=
  (kp.mono Finset.subset_union_left).trans (kp'.mono Finset.subset_union_right) (.refl _ _)

lemma keeps_push (h : Heap) (node S) : Keeps h (h.push node) S := by
  refine ⟨?_, fun _ hx _ => get_push_of_lt node hx⟩
  rw [size_push]
  exact Nat.le_succ _

lemma keeps_put (h : Heap) (slot node) {S : Finset Slot} (hm : slot ∈ S) :
    Keeps h (h.put slot node) S := by
  refine ⟨Nat.le_of_eq (size_put h slot node).symm, fun x _ hn => get_put_of_ne node ?_⟩
  rintro rfl
  exact hn hm

/-! ### All that can be read -/

/-- A slot of the heap holds a node. -/
lemma exists_get_of_lt {h : Heap} {x : Slot} (hx : x < h.size) : ∃ node, h.get x = .ok node :=
  ⟨_, get_eq_ok_iff.2 (Array.getElem?_eq_getElem hx)⟩

lemma get_eq_error_of_le {h : Heap} {x : Slot} (le : h.size ≤ x) :
    h.get x = .error (.dangling x h.size) := by
  rw [get, Array.getElem?_eq_none le]

/-- Where lookups give the same, the nodes are the same. -/
lemma getElem?_eq_of_get_eq {h h' : Heap} {x : Slot} (e : h'.get x = h.get x) :
    h'.nodes[x]? = h.nodes[x]? := by
  refine Option.ext fun node => ?_
  rw [← get_eq_ok_iff, ← get_eq_ok_iff, e]

/-- A heap is the nodes that can be read from it. -/
lemma eq_of_get_eq {h h' : Heap} (es : h'.size = h.size) (eq : ∀ x, h'.get x = h.get x) :
    h' = h := by
  cases h with
  | mk nodes =>
    cases h' with
    | mk nodes' =>
      congr 1
      refine Array.ext_getElem? fun x => ?_
      by_cases hx : x < nodes.size
      · obtain ⟨node, hg⟩ := exists_get_of_lt (h := ⟨nodes⟩) hx
        rw [get_eq_ok_iff.1 hg, get_eq_ok_iff.1 ((eq x).trans hg)]
      · have le := Nat.le_of_not_lt hx
        rw [Array.getElem?_eq_none le, Array.getElem?_eq_none (es.trans_le le)]

/-- If nothing was appended, slots outside the heap are kept too. -/
lemma Keeps.get_eq_of_size_eq {h h' S} (kp : Keeps h h' S) (es : h'.size = h.size) {x}
    (hn : x ∉ S) : h'.get x = h.get x := by
  by_cases hx : x < h.size
  · exact kp.get_eq hx hn
  · have le := Nat.le_of_not_lt hx
    rw [get_eq_error_of_le le, get_eq_error_of_le (es.trans_le le), es]

/-- If nothing was appended, the way back changes the same slots. -/
lemma Keeps.symm {h h' S} (kp : Keeps h h' S) (es : h'.size = h.size) : Keeps h' h S :=
  ⟨Nat.le_of_eq es, fun _ _ hn => (kp.get_eq_of_size_eq es hn).symm⟩

/-! ### Other indices in old places -/

/-- The heaps have the same nodes, except that a variable may have another index. -/
structure Reindexed (h h' : Heap) : Prop where
  get : ∀ ⦃x node⦄, h.get x = .ok node →
    h'.get x = .ok node ∨ ∃ i j, node = .idx i ∧ h'.get x = .ok (.idx j)
  size_eq : h'.size = h.size

namespace Reindexed

variable {h h' h'' : Heap} {x : Slot}

lemma refl (h : Heap) : Reindexed h h :=
  ⟨fun _ _ hg => .inl hg, rfl⟩

lemma symm (re : Reindexed h h') : Reindexed h' h := by
  refine ⟨fun x node' hg' => ?_, re.size_eq.symm⟩
  obtain ⟨node, hg⟩ := exists_get_of_lt (re.size_eq ▸ lt_size_of_get_eq_ok hg')
  rcases re.get hg with e | ⟨i, j, rfl, e⟩ <;> cases hg'.symm.trans e
  · exact .inl hg
  · exact .inr ⟨j, i, rfl, hg⟩

lemma trans (re : Reindexed h h') (re' : Reindexed h' h'') : Reindexed h h'' := by
  refine ⟨fun x node hg => ?_, re'.size_eq.trans re.size_eq⟩
  rcases re.get hg with hg' | ⟨i, j, e, hg'⟩
  · exact re'.get hg'
  · rcases re'.get hg' with hg'' | ⟨i', j', -, hg''⟩
    · exact .inr ⟨i, j, e, hg''⟩
    · exact .inr ⟨i, j', e, hg''⟩

/-- A slot still holds a node, with another index at most. -/
lemma exists_get (re : Reindexed h h') {node} (hg : h.get x = .ok node) :
    ∃ node', h'.get x = .ok node' ∧ node.SameButIndex node' := by
  rcases re.get hg with hg' | ⟨i, j, e, hg'⟩
  · exact ⟨node, hg', .inl rfl⟩
  · exact ⟨_, hg', .inr ⟨i, j, e, rfl⟩⟩

/-- What is no variable is kept. -/
lemma get_eq_of_ne_idx (re : Reindexed h h') {node} (hg : h.get x = .ok node)
    (hn : ∀ i, node ≠ .idx i) : h'.get x = .ok node :=
  (re.get hg).resolve_right fun ⟨i, _, e, _⟩ => hn i e

lemma get_lam (re : Reindexed h h') {body} (hg : h.get x = .ok (.lam body)) :
    h'.get x = .ok (.lam body) :=
  re.get_eq_of_ne_idx hg nofun

lemma get_app (re : Reindexed h h') {fn arg} (hg : h.get x = .ok (.app fn arg)) :
    h'.get x = .ok (.app fn arg) :=
  re.get_eq_of_ne_idx hg nofun

/-- Walks are followed as deep as before. -/
lemma depthBound_eq (re : Reindexed h h') : h'.depthBound = h.depthBound := by
  rw [depthBound, depthBound, re.size_eq]

end Reindexed

/-- A variable in the place of a variable is another index. -/
lemma reindexed_put {h : Heap} {x index} (hg : h.get x = .ok (.idx index)) (index') :
    Reindexed h (h.put x (.idx index')) := by
  refine ⟨fun y node hg' => ?_, size_put h x _⟩
  by_cases e : y = x
  · subst e
    cases hg.symm.trans hg'
    exact .inr ⟨index, index', rfl, get_put_self _ (lt_size_of_get_eq_ok hg)⟩
  · rw [get_put_of_ne _ e]
    exact .inl hg'

end Heap

end WeakHead

import WeakHead.Proofs.Heap.Acyclic
import WeakHead.Proofs.Heap.Grafting
import WeakHead.Proofs.Heap.Unrolling

/-!
# Copies of nodes of any kind

Where all ways down come to an end, a copy has one node for each of them, of whatever kinds the
nodes are and however much is shared. The copy reads from the heap that it is appended to, but what
it has appended is behind all that it still has to read; so what is to be copied is told by the heap
as it was before (`EndsWithin.copyWithin_ok`).

`Postorder` says where the nodes of a copy stand, and `SameTerm` that they are what was copied.
-/

namespace WeakHead.Heap

/-- The slots from `start` to `slot` hold one tree: the left part of a node first, then the right
part, and its root last. -/
inductive Postorder (h : Heap) : (start : Nat) → Slot → Prop where
  | leaf {slot node} :
    h.get slot = .ok node →
    node.parts = [] →
    Postorder h slot slot
  | one {start part node} :
    Postorder h start part →
    h.get (part + 1) = .ok node →
    node.parts = [part] →
    Postorder h start (part + 1)
  | two {start fn arg} :
    Postorder h start fn →
    Postorder h (fn + 1) arg →
    h.get (arg + 1) = .ok (.app fn arg) →
    Postorder h start (arg + 1)

/-- The slots hold nodes of one kind, with the same names and indices, and so do their parts. Where
nodes are shared does not matter. -/
inductive SameTerm (h h' : Heap) : Slot → Slot → Prop where
  | node {x y node node'} :
    h.get x = .ok node →
    h'.get y = .ok node' →
    node.Alike (fun _ _ => True) node' →
    (∀ (i : Nat) part part', node.parts[i]? = some part → node'.parts[i]? = some part' →
      SameTerm h h' part part') →
    SameTerm h h' x y

variable {h₀ h h' h₁ h₂ : Heap} {slot root x y : Slot} {start depth : Nat} {node : Node}

/-! ### Trees in postorder -/

namespace Postorder

lemma le (po : h.Postorder start slot) : start ≤ slot := by
  induction po with
  | leaf _ _ => exact Nat.le_refl _
  | one _ _ _ ih => exact Nat.le_succ_of_le ih
  | two _ _ _ ihf iha => omega

lemma grow (po : h.Postorder start slot) (kp : Keeps h h' ∅) : h'.Postorder start slot := by
  induction po with
  | leaf hg hp => exact .leaf (kp.get_ok hg (Finset.notMem_empty _)) hp
  | one _ hg hp ih => exact .one ih (kp.get_ok hg (Finset.notMem_empty _)) hp
  | two _ _ hg ihf iha => exact .two ihf iha (kp.get_ok hg (Finset.notMem_empty _))

/-- A walk that may go as deep as there are slots leaves them in their order. -/
lemma exists_walks (po : h.Postorder start slot) :
    ∃ n, slot + 1 = start + n ∧ ∀ depth, n ≤ depth →
      ∃ es, h.Walks depth slot es ∧ es.filterMap Visit.left? = List.range' start n := by
  induction po with
  | leaf hg hp =>
    refine ⟨1, rfl, fun depth le => ?_⟩
    obtain ⟨depth, rfl⟩ := Nat.exists_eq_add_of_le' le
    exact ⟨_, walks_leaf hg hp depth, rfl⟩
  | one _ hg hp ih =>
    obtain ⟨n, er, walks⟩ := ih
    refine ⟨n + 1, congrArg (· + 1) er, fun depth le => ?_⟩
    obtain ⟨depth, rfl⟩ := Nat.exists_eq_add_of_le' (Nat.le_of_add_left_le le)
    obtain ⟨es, wk, e⟩ := walks depth (Nat.le_of_succ_le_succ le)
    refine ⟨_, wk.one hg hp, ?_⟩
    rw [filterMap_left_around, e, er, List.range'_1_concat]
  | two _ _ hg ihf iha =>
    obtain ⟨n, ef, walksF⟩ := ihf
    obtain ⟨m, ea, walksA⟩ := iha
    have er : _ + 1 = _ + (n + m) := ea.trans (by rw [ef, Nat.add_assoc])
    refine ⟨n + m + 1, congrArg (· + 1) er, fun depth le => ?_⟩
    obtain ⟨depth, rfl⟩ := Nat.exists_eq_add_of_le' (Nat.le_of_add_left_le le)
    have le := Nat.le_of_succ_le_succ le
    obtain ⟨es, wk, e⟩ := walksF depth (Nat.le_of_add_right_le le)
    obtain ⟨es', wk', e'⟩ := walksA depth (Nat.le_of_add_left_le le)
    refine ⟨_, wk.two wk' hg, ?_⟩
    rw [filterMap_left_around, List.filterMap_append, e, e', ef, List.range'_append_1, er,
      List.range'_1_concat]

/-- All of the slots are below the root. -/
lemma reaches (po : h.Postorder start root) (le : start ≤ x) (le' : x ≤ root) :
    h.Reaches root x := by
  induction po with
  | leaf hg _ =>
    cases Nat.le_antisymm le le'
    exact reaches_self (lt_size_of_get_eq_ok hg)
  | one _ hg hp ih =>
    cases Nat.le_or_eq_of_le_succ le' with
    | inl le' => exact (ih le le').of_part hg (i := 0) (by rw [hp]; rfl)
    | inr e => exact e ▸ reaches_self (lt_size_of_get_eq_ok hg)
  | @two start fn arg _ _ hg ihf iha =>
    cases Nat.le_or_eq_of_le_succ le' with
    | inl le' =>
      by_cases lef : x ≤ fn
      · exact (ihf le lef).of_part hg (i := 0) rfl
      · exact (iha (Nat.lt_of_not_le lef) le').of_part hg (i := 1) rfl
    | inr e => exact e ▸ reaches_self (lt_size_of_get_eq_ok hg)

/-- The parts of a node stand before it, and behind the start. -/
lemma part_mem (po : h.Postorder start root) (le : start ≤ x) (le' : x ≤ root)
    (hg : h.get x = .ok node) {part} (hm : part ∈ node.parts) : start ≤ part ∧ part < x := by
  induction po with
  | leaf hg' hp =>
    cases Nat.le_antisymm le le'
    cases hg.symm.trans hg'
    rw [hp] at hm
    cases hm
  | one po hg' hp ih =>
    cases Nat.le_or_eq_of_le_succ le' with
    | inl le' => exact ih le le'
    | inr e =>
      subst e
      cases hg.symm.trans hg'
      rw [hp, List.mem_singleton] at hm
      subst hm
      exact ⟨po.le, Nat.lt_succ_self part⟩
  | @two start fn arg pof poa hg' ihf iha =>
    cases Nat.le_or_eq_of_le_succ le' with
    | inl le' =>
      by_cases lef : x ≤ fn
      · exact ihf le lef
      · obtain ⟨le₁, lt⟩ := iha (Nat.lt_of_not_le lef) le'
        exact ⟨pof.le.trans (Nat.le_of_succ_le le₁), lt⟩
    | inr e =>
      subst e
      cases hg.symm.trans hg'
      have lt : fn < arg := poa.le
      obtain rfl | rfl := List.mem_pair.1 hm
      · exact ⟨pof.le, Nat.lt_succ_of_lt lt⟩
      · exact ⟨pof.le.trans lt.le, Nat.lt_succ_self part⟩

/-- What the root reaches lies between the first slot and the root. -/
lemma mem_of_reaches (po : h.Postorder start root) (hr : h.Reaches root x) :
    start ≤ x ∧ x ≤ root := by
  obtain ⟨p, e⟩ := hr
  refine mem_of_follow (C := fun x => start ≤ x ∧ x ≤ root) (fun x node hx hg part hm => ?_)
    ⟨po.le, Nat.le_refl root⟩ e
  obtain ⟨le, lt⟩ := po.part_mem hx.1 hx.2 hg hm
  exact ⟨le, lt.le.trans hx.2⟩

/-- No two paths from the root lead to one slot. -/
lemma spansTree (po : h.Postorder start root) : h.SpansTree root := by
  induction po with
  | leaf hg hp => exact spansTree_of_parts hg (by simp [hp]) (by simp [hp])
  | one po hg hp ih =>
    refine spansTree_of_parts hg (fun i part hi => ?_) fun i j part part' x hi hj _ _ => ?_
    · rw [hp] at hi
      match i, hi with
      | 0, rfl => exact ⟨ih, fun hr => absurd (po.mem_of_reaches hr).2 (Nat.not_succ_le_self _)⟩
    · rw [hp] at hi hj
      match i, j, hi, hj with
      | 0, 0, _, _ => rfl
  | @two start fn arg pof poa hg ihf iha =>
    have lt : fn < arg := poa.le
    -- The slots of the function end where those of the argument start.
    have dis : ∀ x, h.Reaches fn x → ¬ h.Reaches arg x := fun x hr hr' =>
      absurd (pof.mem_of_reaches hr).2 (Nat.not_le_of_lt (poa.mem_of_reaches hr').1)
    refine spansTree_of_parts hg (fun i part hi => ?_) fun i j part part' x hi hj hr hr' => ?_
    · match i, hi with
      | 0, rfl =>
        exact ⟨ihf, fun hr => absurd (pof.mem_of_reaches hr).2
          (Nat.not_le_of_lt (Nat.lt_succ_of_lt lt))⟩
      | 1, rfl => exact ⟨iha, fun hr => absurd (poa.mem_of_reaches hr).2 (Nat.not_succ_le_self arg)⟩
    · match i, j, hi, hj with
      | 0, 0, _, _ => rfl
      | 1, 1, _, _ => rfl
      | 0, 1, rfl, rfl => exact absurd hr' (dis x hr)
      | 1, 0, rfl, rfl => exact absurd hr (dis x hr')

end Postorder

/-! ### The same term -/

namespace SameTerm

/-- Nodes that are alike, with parts that stand for the same, stand for the same. -/
lemma of_alike {node'} (hg : h.get x = .ok node) (hg' : h'.get y = .ok node')
    (al : node.Alike (SameTerm h h') node') : SameTerm h h' x y := by
  refine .node hg hg' (al.imp fun _ _ _ => trivial) fun i part part' hp hp' => ?_
  obtain ⟨_, hp'', st⟩ := al.exists_part hp
  cases hp'.symm.trans hp''
  exact st

/-- Where one slot holds a node, the other holds a like one. -/
lemma exists_alike (st : SameTerm h h' x y) (hg : h.get x = .ok node) :
    ∃ node', h'.get y = .ok node' ∧ node.Alike (SameTerm h h') node' := by
  cases st with
  | node hg₁ hg' al parts =>
    cases hg.symm.trans hg₁
    exact ⟨_, hg', al.of_parts parts⟩

lemma grow (st : SameTerm h h₁ x y) (kp : Keeps h₁ h₂ ∅) : SameTerm h h₂ x y := by
  induction st with
  | node hg hg' al _ ih => exact .node hg (kp.get_ok hg' (Finset.notMem_empty _)) al ih

lemma symm (st : SameTerm h h' x y) : SameTerm h' h y x := by
  induction st with
  | node hg hg' al _ ih =>
    exact .node hg' hg al.symm fun i part part' hp hp' => ih i part' part hp' hp

lemma unfolds {t} (st : SameTerm h h' x y) (un : h.Unfolds x t) : h'.Unfolds y t := by
  induction un generalizing y with
  | idx hg =>
    obtain ⟨_, hg', al⟩ := st.exists_alike hg
    cases al with
    | idx => exact .idx hg'
  | lam hg _ ih =>
    obtain ⟨_, hg', al⟩ := st.exists_alike hg
    cases al with
    | lam st => exact .lam hg' (ih st)
  | app hg _ _ ihf iha =>
    obtain ⟨_, hg', al⟩ := st.exists_alike hg
    cases al with
    | app stf sta => exact .app hg' (ihf stf) (iha sta)

lemma unfoldsNamed {t} (st : SameTerm h h' x y) (un : h.UnfoldsNamed x t) :
    h'.UnfoldsNamed y t := by
  induction un generalizing y with
  | var hg =>
    obtain ⟨_, hg', al⟩ := st.exists_alike hg
    cases al with
    | var => exact .var hg'
  | abs hg _ ih =>
    obtain ⟨_, hg', al⟩ := st.exists_alike hg
    cases al with
    | abs st => exact .abs hg' (ih st)
  | app hg _ _ ihf iha =>
    obtain ⟨_, hg', al⟩ := st.exists_alike hg
    cases al with
    | app stf sta => exact .app hg' (ihf stf) (iha sta)

/-- The same ways lead down. -/
lemma isSome_follow_eq (st : SameTerm h h' x y) (path) :
    (h'.follow y path).isSome = (h.follow x path).isSome := by
  induction st generalizing path with
  | node hg hg' al _ ih => exact Heap.isSome_follow_eq hg hg' (al.of_parts ih).forall₂_parts path

end SameTerm

/-! ### The copy -/

/-- What a copy of `slot`, appended to the heap `h`, is to what stands under it in `h₀`; it has `n`
nodes. -/
structure Unshares (h₀ h : Heap) (slot : Slot) (h' : Heap) (root : Slot) (n : Nat) : Prop where
  copied : Copied h h' root
  post : h'.Postorder h.size root
  same : SameTerm h₀ h' slot root
  size_eq : h'.size = h.size + n

namespace Unshares

variable {part fn arg fresh freshF freshA : Slot} {n m : Nat}

lemma leaf (hg₀ : h₀.get slot = .ok node) (hp : node.parts = [])
    (cp : Copied h (h.push node) h.size) : Unshares h₀ h slot (h.push node) h.size 1 := by
  have hg := get_push_size h node
  have al : node.Alike (SameTerm h₀ (h.push node)) (node.rename id) :=
    Node.alike_rename fun part hm => absurd (hp ▸ hm) List.not_mem_nil
  rw [Node.rename_id] at al
  exact ⟨cp, .leaf hg hp, .of_alike hg₀ hg al, size_push h node⟩

lemma one (us : Unshares h₀ h part h₁ fresh n) (hg₀ : h₀.get slot = .ok node)
    (hp : node.parts = [part])
    (cp : Copied h (h₁.push (node.rename fun _ => fresh)) h₁.size) :
    Unshares h₀ h slot (h₁.push (node.rename fun _ => fresh)) h₁.size (n + 1) := by
  have kp := keeps_push h₁ (node.rename fun _ => fresh) ∅
  have hg := get_push_size h₁ (node.rename fun _ => fresh)
  refine ⟨cp, ?_, .of_alike hg₀ hg (Node.alike_rename fun part' hm => ?_), ?_⟩
  · rw [← us.copied.root_eq] at hg ⊢
    exact .one (us.post.grow kp) hg (by rw [Node.parts_rename, hp]; rfl)
  · rw [hp, List.mem_singleton] at hm
    exact hm ▸ us.same.grow kp
  · rw [size_push, us.size_eq, Nat.add_assoc]

/-- An application is copied behind the copies of its function and its argument. -/
lemma two (us : Unshares h₀ h fn h₁ freshF n) (us' : Unshares h₀ h₁ arg h₂ freshA m)
    (hg₀ : h₀.get slot = .ok (.app fn arg))
    (cp : Copied h (h₂.push (.app freshF freshA)) h₂.size) :
    Unshares h₀ h slot (h₂.push (.app freshF freshA)) h₂.size (n + m + 1) := by
  have kp := keeps_push h₂ (.app freshF freshA) ∅
  have kpF := us'.copied.trees.keeps.trans kp (.refl _ _)
  have hg := get_push_size h₂ (.app freshF freshA)
  refine ⟨cp, ?_, .of_alike hg₀ hg (.app (us.same.grow kpF) (us'.same.grow kp)), ?_⟩
  · have post := us'.post
    rw [← us.copied.root_eq] at post
    rw [← us'.copied.root_eq] at hg ⊢
    exact .two (us.post.grow kpF) (post.grow kp) hg
  · rw [size_push, us'.size_eq, us.size_eq, Nat.add_assoc, Nat.add_assoc, Nat.add_assoc]

end Unshares

/-- What comes to an end can be copied to the end of the heap, even if that has got more nodes
since. -/
lemma EndsWithin.copyWithin_ok (en : h₀.EndsWithin depth slot) (kp : Keeps h₀ h ∅) :
    ∃ h' root n, copyWithin depth h slot = .ok (h', root) ∧ h₀.sizeWithin depth slot = .ok n ∧
      Unshares h₀ h slot h' root n := by
  induction depth generalizing h slot with
  | zero => exact absurd en id
  | succ depth ih =>
    obtain ⟨node, hg₀, en⟩ := en
    have hg := kp.get_ok hg₀ (Finset.notMem_empty slot)
    rcases node.parts_cases with hp | ⟨part, hp⟩ | ⟨fn, arg, rfl⟩
    · have e := copyWithin_leaf hg hp depth
      exact ⟨_, _, 1, e, sizeWithin_leaf hg₀ hp depth, .leaf hg₀ hp (copied_of_copyWithin e)⟩
    · obtain ⟨h₁, fresh, n, e₁, es, us⟩ := ih (en part (by rw [hp]; exact List.mem_cons_self)) kp
      have e := copyWithin_one hg hp depth
      rw [e₁] at e
      exact ⟨_, _, n + 1, e, sizeWithin_one hg₀ hp es, us.one hg₀ hp (copied_of_copyWithin e)⟩
    · obtain ⟨h₁, freshF, n, e₁, es, us⟩ := ih (en fn List.mem_cons_self) kp
      have kp₁ := kp.trans us.copied.trees.keeps (.refl _ _)
      obtain ⟨h₂, freshA, m, e₂, es', us'⟩ :=
        ih (en arg (List.mem_cons_of_mem _ List.mem_cons_self)) kp₁
      have e : copyWithin (depth + 1) h slot = .ok (h₂.push (.app freshF freshA), h₂.size) := by
        rw [copyWithin_app hg, e₁]
        show (copyWithin depth h₁ arg).map _ = _
        rw [e₂]
        rfl
      exact ⟨_, _, n + m + 1, e, sizeWithin_two hg₀ es es',
        us.two us' hg₀ (copied_of_copyWithin e)⟩

/-- What is copied is unrolled. -/
lemma Unshares.unrolls {n} (us : Unshares h h slot h' root n) : h.Unrolls slot h' root := by
  have cp := us.copied
  refine ⟨fun x hx => cp.trees.keeps.get_eq hx (Finset.notMem_empty x), us.same.isSome_follow_eq,
    fun path x e => cp.trees.old_le_of_follow cp.old_le e, fun x le lt => ?_, ?_, cp.root_eq⟩
  · obtain ⟨path, e⟩ := us.post.reaches le (Nat.le_of_lt_succ (lt.trans_eq cp.root_eq.symm))
    exact ⟨path, e, fun path' e' => cp.trees.spans root cp.old_le path' path x e' e⟩
  · obtain ⟨n', er, walks⟩ := us.post.exists_walks
    have en : h'.size = h.size + n' := cp.root_eq.symm.trans er
    have le : n' ≤ h'.depthBound := by
      rw [depthBound, en]
      exact Nat.le_succ_of_le (Nat.le_add_left n' h.size)
    obtain ⟨es, wk, e⟩ := walks h'.depthBound le
    exact ⟨es, wk.visits_eq, by rw [e, en, Nat.add_sub_cancel_left]⟩

end WeakHead.Heap

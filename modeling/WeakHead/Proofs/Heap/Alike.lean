import WeakHead.Proofs.Heap.Building

/-!
# Heaps that look alike

Two heaps look alike at related slots if related slots hold nodes of one kind, with the same names
and indices, whose parts are related again; and each slot is related to one slot at most, on both
sides. What lies in other slots does not matter. Whatever is done to both at related slots leaves
heaps that look alike, with new nodes related to new nodes.
-/

namespace WeakHead

/-! ### Results -/

/-- The same is wrong in two places. -/
inductive Fault.Alike : Fault → Fault → Prop where
  | indexOutside (slot slot' : Slot) (index : Nat) (amount : Int) :
    Alike (.indexOutside slot index amount) (.indexOutside slot' index amount)
  | tooManyBinders : Alike .tooManyBinders .tooManyBinders

/-- Two operations agree: both succeed, with related results, or the same is wrong with both. -/
inductive Agree {α β : Type} (P : α → β → Prop) : Except Fault α → Except Fault β → Prop where
  | ok {a b} : P a b → Agree P (.ok a) (.ok b)
  | error {fault fault' : Fault} : fault.Alike fault' → Agree P (.error fault) (.error fault')

namespace Agree

variable {α β γ δ : Type} {P P' : α → β → Prop} {Q : γ → δ → Prop} {x : Except Fault α}
  {y : Except Fault β} {f : α → Except Fault γ} {g : β → Except Fault δ}

/-- Operations that agree go on to agree if whatever they give does. -/
lemma bind (ag : Agree P x y) (next : ∀ a b, P a b → Agree Q (f a) (g b)) :
    Agree Q (x.bind f) (y.bind g) := by
  cases ag with
  | ok p => exact next _ _ p
  | error alike => exact .error alike

/-- What is made of results that agree agrees. -/
lemma map {f : α → γ} {g : β → δ} (ag : Agree P x y) (next : ∀ a b, P a b → Q (f a) (g b)) :
    Agree Q (x.map f) (y.map g) := by
  cases ag with
  | ok p => exact .ok (next _ _ p)
  | error alike => exact .error alike

/-- The result of one side may be put in another form. -/
lemma map_right {g : β → δ} {P' : α → δ → Prop} (ag : Agree P x y)
    (next : ∀ a b, P a b → P' a (g b)) : Agree P' x (y.map g) := by
  cases ag with
  | ok p => exact .ok (next _ _ p)
  | error alike => exact .error alike

/-- Results may be related more loosely. -/
lemma imp (ag : Agree P x y) (next : ∀ a b, P a b → P' a b) : Agree P' x y := by
  cases ag with
  | ok p => exact .ok (next _ _ p)
  | error alike => exact .error alike

/-- What two operations agree on is about what they give. -/
lemma with_eq (ag : Agree P x y) : Agree (fun a b => x = .ok a ∧ y = .ok b ∧ P a b) x y := by
  cases ag with
  | ok p => exact .ok ⟨rfl, rfl, p⟩
  | error alike => exact .error alike

/-- Two results that agree are related. -/
lemma of_ok {a b} (ag : Agree P (.ok a) (.ok b)) : P a b := by
  cases ag with
  | ok p => exact p

end Agree

/-! ### Nodes and heaps -/

/-- Nodes are alike if they are of one kind, with the same name or index, and their parts are
related. -/
inductive Node.Alike (R : Slot → Slot → Prop) : Node → Node → Prop where
  | var (name : String) : Alike R (.var name) (.var name)
  | abs {binder : String} {body body' : Slot} :
    R body body' → Alike R (.abs binder body) (.abs binder body')
  | app {fn fn' arg arg' : Slot} :
    R fn fn' → R arg arg' → Alike R (.app fn arg) (.app fn' arg')
  | idx (index : Nat) : Alike R (.idx index) (.idx index)
  | lam {body body' : Slot} : R body body' → Alike R (.lam body) (.lam body')

/-- Related slots hold nodes that are alike, and no slot is related to two. -/
structure Heap.Alike (R : Slot → Slot → Prop) (h h' : Heap) : Prop where
  exists_nodes : ∀ ⦃x y⦄, R x y → ∃ node node', h.get x = .ok node ∧ h'.get y = .ok node' ∧
    node.Alike R node'
  right_unique : ∀ ⦃x y y'⦄, R x y → R x y' → y = y'
  left_unique : ∀ ⦃x x' y⦄, R x y → R x' y → x = x'

variable {R R' : Slot → Slot → Prop} {node node' : Node} {h h' : Heap} {x y : Slot}

/-- The node with its parts in other slots. -/
def Node.rename (ρ : Slot → Slot) : Node → Node
  | var name => var name
  | abs binder body => abs binder (ρ body)
  | app fn arg => app (ρ fn) (ρ arg)
  | idx index => idx index
  | lam body => lam (ρ body)

/-- A node whose parts stay where they are stays what it is. -/
lemma Node.rename_id (node : Node) : node.rename id = node := by
  cases node <;> rfl

/-- Moving the parts twice is moving them once. -/
lemma Node.rename_rename (ρ σ : Slot → Slot) (node : Node) :
    (node.rename ρ).rename σ = node.rename (σ ∘ ρ) := by
  cases node <;> rfl

/-- The parts move, in their order. -/
@[simp] lemma Node.parts_rename (ρ : Slot → Slot) (node : Node) :
    (node.rename ρ).parts = node.parts.map ρ := by
  cases node <;> rfl

/-- A node has no part or one, or it is an application. -/
lemma Node.parts_cases (node : Node) :
    node.parts = [] ∨ (∃ part, node.parts = [part]) ∨ ∃ fn arg, node = .app fn arg := by
  cases node with
  | var _ => exact .inl rfl
  | abs _ body => exact .inr (.inl ⟨body, rfl⟩)
  | app fn arg => exact .inr (.inr ⟨fn, arg, rfl⟩)
  | idx _ => exact .inl rfl
  | lam body => exact .inr (.inl ⟨body, rfl⟩)

/-- A node is like the one that comes of it when its parts move to related slots. -/
lemma Node.alike_rename {ρ : Slot → Slot} (rel : ∀ part ∈ node.parts, R part (ρ part)) :
    node.Alike R (node.rename ρ) := by
  cases node with
  | var name => exact .var name
  | abs binder body => exact .abs (rel body List.mem_cons_self)
  | app fn arg =>
    exact .app (rel fn List.mem_cons_self) (rel arg (List.mem_cons_of_mem _ List.mem_cons_self))
  | idx index => exact .idx index
  | lam body => exact .lam (rel body List.mem_cons_self)

/-- If the relation is a function, the like node is the one whose parts have moved by it. -/
lemma Node.Alike.eq_rename {ρ : Slot → Slot} (al : node.Alike R node')
    (eq : ∀ x y, R x y → ρ x = y) : node' = node.rename ρ := by
  cases al with
  | var _ => rfl
  | abs r => rw [rename, eq _ _ r]
  | app rf ra => rw [rename, eq _ _ rf, eq _ _ ra]
  | idx _ => rfl
  | lam r => rw [rename, eq _ _ r]

/-- Parts may be related more loosely. -/
lemma Node.Alike.imp (al : node.Alike R node') (imp : ∀ x y, R x y → R' x y) :
    node.Alike R' node' := by
  cases al with
  | var name => exact .var name
  | abs r => exact .abs (imp _ _ r)
  | app rf ra => exact .app (imp _ _ rf) (imp _ _ ra)
  | idx index => exact .idx index
  | lam r => exact .lam (imp _ _ r)

/-- Parts in the same places may be related in another way. -/
lemma Node.Alike.of_parts (al : node.Alike R node')
    (rel : ∀ (i : Nat) part part', node.parts[i]? = some part → node'.parts[i]? = some part' →
      R' part part') : node.Alike R' node' := by
  cases al with
  | var name => exact .var name
  | abs _ => exact .abs (rel 0 _ _ rfl rfl)
  | app _ _ => exact .app (rel 0 _ _ rfl rfl) (rel 1 _ _ rfl rfl)
  | idx index => exact .idx index
  | lam _ => exact .lam (rel 0 _ _ rfl rfl)

/-- The relation can be read backwards. -/
lemma Node.Alike.symm (al : node.Alike R node') : node'.Alike (flip R) node := by
  cases al with
  | var name => exact .var name
  | abs r => exact .abs r
  | app rf ra => exact .app rf ra
  | idx index => exact .idx index
  | lam r => exact .lam r

/-- What is like a like node is like the first, by way of the slots between. -/
lemma Node.Alike.trans {node''} (al : node.Alike R node') (al' : node'.Alike R' node'') :
    node.Alike (Relation.Comp R R') node'' := by
  cases al with
  | var name =>
    cases al' with
    | var => exact .var name
  | abs r =>
    cases al' with
    | abs r' => exact .abs ⟨_, r, r'⟩
  | app rf ra =>
    cases al' with
    | app rf' ra' => exact .app ⟨_, rf, rf'⟩ ⟨_, ra, ra'⟩
  | idx index =>
    cases al' with
    | idx => exact .idx index
  | lam r =>
    cases al' with
    | lam r' => exact .lam ⟨_, r, r'⟩

/-- Each part has a related one in the same place. -/
lemma Node.Alike.exists_part (al : node.Alike R node') {i : Nat} {part : Slot}
    (hp : node.parts[i]? = some part) : ∃ part', node'.parts[i]? = some part' ∧ R part part' := by
  cases al with
  | var _ => cases hp
  | abs r =>
    match i, hp with
    | 0, hp =>
      cases hp
      exact ⟨_, rfl, r⟩
  | app rf ra =>
    match i, hp with
    | 0, hp =>
      cases hp
      exact ⟨_, rfl, rf⟩
    | 1, hp =>
      cases hp
      exact ⟨_, rfl, ra⟩
  | idx _ => cases hp
  | lam r =>
    match i, hp with
    | 0, hp =>
      cases hp
      exact ⟨_, rfl, r⟩

/-- The parts of like nodes are related one by one. -/
lemma Node.Alike.forall₂_parts (al : node.Alike R node') :
    List.Forall₂ R node.parts node'.parts := by
  cases al with
  | var _ => exact .nil
  | abs r => exact .cons r .nil
  | app rf ra => exact .cons rf (.cons ra .nil)
  | idx _ => exact .nil
  | lam r => exact .cons r .nil

namespace Heap

namespace Alike

/-- The heaps look alike from the other side as well. -/
lemma symm (al : Alike R h h') : Alike (flip R) h' h where
  exists_nodes x y r := by
    obtain ⟨node, node', hg, hg', na⟩ := al.exists_nodes r
    exact ⟨node', node, hg', hg, na.symm⟩
  right_unique _ _ _ r r' := al.left_unique r r'
  left_unique _ _ _ r r' := al.right_unique r r'

/-- Heaps that look like a third one look alike, by way of its slots. -/
lemma trans {h''} (al : Alike R h h') (al' : Alike R' h' h'') :
    Alike (Relation.Comp R R') h h'' where
  exists_nodes := by
    rintro x z ⟨y, r, r'⟩
    obtain ⟨node, node', hg, hg', na⟩ := al.exists_nodes r
    obtain ⟨node₁, node'', hg₁, hg'', na'⟩ := al'.exists_nodes r'
    cases hg'.symm.trans hg₁
    exact ⟨node, node'', hg, hg'', na.trans na'⟩
  right_unique := by
    rintro x z z' ⟨y, r, r'⟩ ⟨y', s, s'⟩
    cases al.right_unique r s
    exact al'.right_unique r' s'
  left_unique := by
    rintro x x' z ⟨y, r, r'⟩ ⟨y', s, s'⟩
    cases al'.left_unique r' s'
    exact al.left_unique r s

/-- At a related slot there is a like node. -/
lemma exists_node (al : Alike R h h') (r : R x y) (hg : h.get x = .ok node) :
    ∃ node', h'.get y = .ok node' ∧ node.Alike R node' := by
  obtain ⟨node, node', hg', hg'', na⟩ := al.exists_nodes r
  cases hg.symm.trans hg'
  exact ⟨node', hg'', na⟩

/-- Related slots are slots of their heaps. -/
lemma lt_size (al : Alike R h h') {x y : Nat} (r : R x y) : x < h.size ∧ y < h'.size := by
  obtain ⟨node, node', hg, hg', -⟩ := al.exists_nodes r
  exact ⟨lt_size_of_get_eq_ok hg, lt_size_of_get_eq_ok hg'⟩

/-- At a slot related to a variable there is the same variable. -/
lemma get_idx (al : Alike R h h') (r : R x y) {index} (hg : h.get x = .ok (.idx index)) :
    h'.get y = .ok (.idx index) := by
  obtain ⟨node', hg', na⟩ := al.exists_node r hg
  cases na with
  | idx => exact hg'

/-- At a slot related to an abstraction there is one, and the bodies are related. -/
lemma get_lam (al : Alike R h h') (r : R x y) {body} (hg : h.get x = .ok (.lam body)) :
    ∃ body', h'.get y = .ok (.lam body') ∧ R body body' := by
  obtain ⟨node', hg', na⟩ := al.exists_node r hg
  cases na with
  | lam r => exact ⟨_, hg', r⟩

/-- At a slot related to an application there is one, and its parts are related. -/
lemma get_app (al : Alike R h h') (r : R x y) {fn arg} (hg : h.get x = .ok (.app fn arg)) :
    ∃ fn' arg', h'.get y = .ok (.app fn' arg') ∧ R fn fn' ∧ R arg arg' := by
  obtain ⟨node', hg', na⟩ := al.exists_node r hg
  cases na with
  | app rf ra => exact ⟨_, _, hg', rf, ra⟩

/-- Related slots stand for the same term. -/
lemma unfolds (al : Alike R h h') {t} (un : h.Unfolds x t) (r : R x y) : h'.Unfolds y t := by
  induction un generalizing y with
  | idx hg => exact .idx (al.get_idx r hg)
  | lam hg _ ih =>
    obtain ⟨_, hg', rb⟩ := al.get_lam r hg
    exact .lam hg' (ih rb)
  | app hg _ _ ihf iha =>
    obtain ⟨_, _, hg', rf, ra⟩ := al.get_app r hg
    exact .app hg' (ihf rf) (iha ra)

/-- Related slots stand for the same named term. -/
lemma unfoldsNamed (al : Alike R h h') {t} (un : h.UnfoldsNamed x t) (r : R x y) :
    h'.UnfoldsNamed y t := by
  induction un generalizing y with
  | var hg =>
    obtain ⟨node', hg', na⟩ := al.exists_node r hg
    cases na with
    | var => exact .var hg'
  | abs hg _ ih =>
    obtain ⟨node', hg', na⟩ := al.exists_node r hg
    cases na with
    | abs rb => exact .abs hg' (ih rb)
  | app hg _ _ ihf iha =>
    obtain ⟨_, _, hg', rf, ra⟩ := al.get_app r hg
    exact .app hg' (ihf rf) (iha ra)

/-- The same path leads from related slots to related slots. -/
lemma follow (al : Alike R h h') (r : R x y) {p z} (e : h.follow x p = some z) :
    ∃ w, h'.follow y p = some w ∧ R z w := by
  induction p generalizing x y with
  | nil =>
    obtain ⟨node, node', hg, hg', -⟩ := al.exists_nodes r
    rw [follow_nil hg] at e
    cases e
    exact ⟨y, follow_nil hg', r⟩
  | cons i p ih =>
    obtain ⟨node, node', hg, hg', na⟩ := al.exists_nodes r
    rw [follow_cons hg, Option.bind_eq_some_iff] at e
    obtain ⟨part, hp, e⟩ := e
    obtain ⟨part', hp', r'⟩ := na.exists_part hp
    obtain ⟨w, e', rw'⟩ := ih r' e
    exact ⟨w, by rw [follow_cons hg', hp', Option.bind_some, e'], rw'⟩

/-- What is reached from a slot has its counterpart, reached from the related one. -/
lemma exists_reaches (al : Alike R h h') (r : R x y) {z} (hr : h.Reaches x z) :
    ∃ w, h'.Reaches y w ∧ R z w := by
  obtain ⟨p, e⟩ := hr
  obtain ⟨w, e', r'⟩ := al.follow r e
  exact ⟨w, ⟨p, e'⟩, r'⟩

/-- Heaps look alike after like nodes have been put into related slots. -/
lemma put (al : Alike R h h') (r : R x y) (na : node.Alike R node') :
    Alike R (h.put x node) (h'.put y node') := by
  refine ⟨fun a b r' => ?_, al.right_unique, al.left_unique⟩
  obtain ⟨hx, hy⟩ := al.lt_size r
  by_cases e : a = x
  · subst e
    cases al.right_unique r r'
    exact ⟨node, node', get_put_self node hx, get_put_self node' hy, na⟩
  · have e' : b ≠ y := fun eb => e (al.left_unique r' (eb ▸ r))
    rw [get_put_of_ne node e, get_put_of_ne node' e']
    exact al.exists_nodes r'

end Alike

/-- A heap looks like itself, at slots that stand for terms. -/
lemma alike_self (h : Heap) : Alike (fun x y => x = y ∧ ∃ u, h.Unfolds x u) h h := by
  refine ⟨?_, ?_, ?_⟩
  · rintro x y ⟨rfl, u, un⟩
    cases un with
    | idx hg => exact ⟨_, _, hg, hg, .idx _⟩
    | lam hg unb => exact ⟨_, _, hg, hg, .lam ⟨rfl, _, unb⟩⟩
    | app hg unf una => exact ⟨_, _, hg, hg, .app ⟨rfl, _, unf⟩ ⟨rfl, _, una⟩⟩
  · rintro x y y' ⟨e, -⟩ ⟨e', -⟩
    exact e.symm.trans e'
  · rintro x x' y ⟨e, -⟩ ⟨e', -⟩
    exact e.trans e'.symm

/-! ### New nodes -/

/-- The slots come at the same place among `size` slots from `n` and from `n'` on. -/
def Among (n n' size x y : Nat) : Prop :=
  ∃ k < size, x = n + k ∧ y = n' + k

/-- A range within a longer one. -/
lemma Among.within {n n' m size size'} (am : Among (n + m) (n' + m) size x y)
    (le : m + size ≤ size') : Among n n' size' x y := by
  obtain ⟨k, lt, rfl, rfl⟩ := am
  exact ⟨m + k, by omega, Nat.add_assoc n m k, Nat.add_assoc n' m k⟩

/-- The root is the last slot of those taken in order. -/
lemma PostAt.eq_add {t start root} (po : h.PostAt start t root) :
    start + (t.size - 1) = root ∧ t.size - 1 < t.size := by
  have e : start + t.size = root + 1 := po.root_eq.symm
  have pos := t.height_pos.trans_le t.height_le_size
  omega

/-- The roots come at the same place among the slots. -/
lemma PostAt.among_root {t start start' root root'} (po : h.PostAt start t root)
    (po' : h'.PostAt start' t root') : Among start start' t.size root root' :=
  ⟨t.size - 1, po.eq_add.2, po.eq_add.1.symm, po'.eq_add.1.symm⟩

/-- Trees for one term in slots that were taken in order look alike. -/
lemma PostAt.alike {t start start' root root'} (po : h.PostAt start t root)
    (po' : h'.PostAt start' t root') (am : Among start start' t.size x y) :
    ∃ node node', h.get x = .ok node ∧ h'.get y = .ok node' ∧
      node.Alike (Among start start' t.size) node' := by
  induction po generalizing start' root' x y with
  | idx hg =>
    obtain ⟨k, lt, rfl, rfl⟩ := am
    cases Nat.lt_one_iff.1 lt
    cases po' with
    | idx hg' => exact ⟨_, _, hg, hg', .idx _⟩
  | @lam start body t po hg ih =>
    cases po' with
    | @lam _ body' _ po' hg' =>
      have sub : ∀ x y, Among start start' t.size x y → Among start start' (t.size + 1) x y :=
        fun x y am => am.within (m := 0) (by omega)
      obtain ⟨k, lt, rfl, rfl⟩ := am
      cases Nat.lt_succ_iff_lt_or_eq.1 lt with
      | inl lt =>
        obtain ⟨node, node', hx, hy, na⟩ := ih po' ⟨k, lt, rfl, rfl⟩
        exact ⟨node, node', hx, hy, na.imp sub⟩
      | inr e =>
        rw [e, ← po.root_eq, ← po'.root_eq]
        exact ⟨_, _, hg, hg', .lam (sub _ _ (po.among_root po'))⟩
  | @app start fn arg t u pof poa hg ihf iha =>
    cases po' with
    | @app _ fn' arg' _ _ pof' poa' hg' =>
      have subF : ∀ x y, Among start start' t.size x y →
          Among start start' (t.size + u.size + 1) x y := fun x y am =>
        am.within (m := 0) (by omega)
      have subA : ∀ x y, Among (fn + 1) (fn' + 1) u.size x y →
          Among start start' (t.size + u.size + 1) x y := fun x y am => by
        rw [pof.root_eq, pof'.root_eq] at am
        exact am.within (by omega)
      obtain ⟨k, lt, rfl, rfl⟩ := am
      rw [IndexTerm.size] at lt
      by_cases ltF : k < t.size
      · obtain ⟨node, node', hx, hy, na⟩ := ihf pof' ⟨k, ltF, rfl, rfl⟩
        exact ⟨node, node', hx, hy, na.imp subF⟩
      by_cases ltA : k < t.size + u.size
      · obtain ⟨node, node', hx, hy, na⟩ := iha poa' (x := start + k) (y := start' + k)
          ⟨k - t.size, by omega, by rw [pof.root_eq]; omega, by rw [pof'.root_eq]; omega⟩
        exact ⟨node, node', hx, hy, na.imp subA⟩
      · -- The root comes after the nodes of both parts.
        have e : start + t.size + u.size = arg + 1 := by rw [← pof.root_eq, poa.root_eq]
        have e' : start' + t.size + u.size = arg' + 1 := by rw [← pof'.root_eq, poa'.root_eq]
        rw [show start + k = arg + 1 by omega, show start' + k = arg' + 1 by omega]
        exact ⟨_, _, hg, hg',
          .app (subF _ _ (pof.among_root pof')) (subA _ _ (poa.among_root poa'))⟩

/-- Trees for one term in the same slots, taken in order, are the same. -/
lemma PostAt.get_eq {t start root root'} (po : h.PostAt start t root)
    (po' : h'.PostAt start t root') (le : start ≤ x) (lt : x < start + t.size) :
    h'.get x = h.get x := by
  obtain ⟨k, rfl⟩ := Nat.exists_eq_add_of_le le
  obtain ⟨node, node', hg, hg', na⟩ := po.alike po' ⟨k, Nat.lt_of_add_lt_add_left lt, rfl, rfl⟩
  have e := na.eq_rename (ρ := id) fun x y ⟨k, _, ex, ey⟩ => ex.trans ey.symm
  rw [hg, hg', e, Node.rename_id]

/-- Heaps look alike after each has got a tree for one term, in new slots that are related in order.
-/
lemma Alike.built {h₁ h₁' : Heap} {t root root'} (al : Alike R h h') (bt : Built h h₁ root t)
    (bt' : Built h' h₁' root' t) :
    Alike (fun x y => R x y ∨ Among h.size h'.size t.size x y) h₁ h₁' := by
  have old : ∀ {x y k : Nat}, R x y → x ≠ h.size + k ∧ y ≠ h'.size + k := fun r => by
    obtain ⟨hx, hy⟩ := al.lt_size r
    omega
  refine ⟨fun x y r => ?_, fun x y y' r r' => ?_, fun x x' y r r' => ?_⟩
  · cases r with
    | inl r =>
      obtain ⟨node, node', hg, hg', na⟩ := al.exists_nodes r
      exact ⟨node, node', bt.keeps.get_ok hg (Finset.notMem_empty _),
        bt'.keeps.get_ok hg' (Finset.notMem_empty _), na.imp fun _ _ => .inl⟩
    | inr am =>
      obtain ⟨node, node', hg, hg', na⟩ := bt.post.alike bt'.post am
      exact ⟨node, node', hg, hg', na.imp fun _ _ => .inr⟩
  · rcases r with r | ⟨k, -, rfl, rfl⟩ <;> rcases r' with r' | ⟨k', -, e, rfl⟩
    · exact al.right_unique r r'
    · exact absurd e (old r).1
    · exact absurd rfl (old r').1
    · exact congrArg (h'.size + ·) (Nat.add_left_cancel e)
  · rcases r with r | ⟨k, -, rfl, rfl⟩ <;> rcases r' with r' | ⟨k', -, rfl, e⟩
    · exact al.left_unique r r'
    · exact absurd e (old r).2
    · exact absurd rfl (old r').2
    · exact congrArg (h.size + ·) (Nat.add_left_cancel e)

end Heap

end WeakHead

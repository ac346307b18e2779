import WeakHead.Proofs.Heap.Resolver
import WeakHead.Proofs.Heap.Unsharing
import WeakHead.Proofs.Term.Variables

/-!
# Resolution slot by slot

A term is laid out by a recursion over the term. Its names are resolved by a walk over the heap,
which gives out slots before there are nodes in them. Both put the parts of a node before the node
and the left part before the right one, so the new nodes stand in the order of the old ones: if the
term has `n` nodes, slot `n + x` holds what has become of the node in slot `x`, and its parts are
`n` slots further on as well.

Main statement: `resolve_mirrors`.
-/

namespace WeakHead

/-- Inside the binders `scope`, innermost first, the node with names comes to the node with indices.
The parts of the latter are `n` slots further on. -/
inductive Node.ResolvesTo (free : FreeNames) (scope : List String) (n : Nat) : Node → Node → Prop
    where
  /-- A bound variable counts the binders up to the innermost one of its name. -/
  | bound {name distance} :
    scope[distance]? = some name →
    (∀ inner < distance, scope[inner]? ≠ some name) →
    ResolvesTo free scope n (.var name) (.idx distance)
  /-- A free variable counts all binders around it and the names before its own in the table. -/
  | free {name number} :
    name ∉ scope →
    free.name? number = some name →
    ResolvesTo free scope n (.var name) (.idx (number + scope.length))
  | abs (binder body) :
    ResolvesTo free scope n (.abs binder body) (.lam (n + body))
  | app (fn arg) :
    ResolvesTo free scope n (.app fn arg) (.app (n + fn) (n + arg))

/-- The names that a node binds in its parts. -/
def Node.binders : Node → List String
  | abs binder _ => [binder]
  | _ => []

namespace Heap

variable {h h' : Heap} {slot root start n : Nat} {t : Term} {u : IndexTerm} {free : FreeNames}
  {scope : List String}

/-- The names of the binders that a path crosses, innermost first, and then those of `scope`. -/
def scopeOn (h : Heap) (scope : List String) (slot : Slot) : List Nat → List String
  | [] => scope
  | part :: path =>
    match h.nodes[slot]? with
    | some node =>
      match node.parts[part]? with
      | some next => h.scopeOn (node.binders ++ scope) next path
      | none => scope
    | none => scope

lemma scopeOn_cons {node part p} {i : Nat} (hg : h.get slot = .ok node)
    (hp : node.parts[i]? = some part) :
    h.scopeOn scope slot (i :: p) = h.scopeOn (node.binders ++ scope) part p := by
  simp only [scopeOn, get_eq_ok_iff.1 hg, hp]

/-! ### The layout -/

/-- The nodes of a term that is laid out are appended in postorder. -/
lemma layOut_postorder (h : Heap) (t : Term) :
    (h.layOut t).1.Postorder h.size (h.layOut t).2 := by
  induction t generalizing h with
  | var name => exact .leaf (get_push_size h _) rfl
  | abs binder body ih =>
    have kp := keeps_push (h.layOut body).1 (.abs binder (h.layOut body).2) ∅
    have hg := get_push_size (h.layOut body).1 (.abs binder (h.layOut body).2)
    have po := (ih h).grow kp
    show Postorder _ _ (h.layOut body).1.size
    rw [← layOut_root h body] at hg ⊢
    exact .one po hg rfl
  | app fn arg ihf iha =>
    let h₁ := (h.layOut fn).1
    have kp := keeps_push (h₁.layOut arg).1 (.app (h.layOut fn).2 (h₁.layOut arg).2) ∅
    have hg := get_push_size (h₁.layOut arg).1 (.app (h.layOut fn).2 (h₁.layOut arg).2)
    have pof := ((ihf h).grow (layOut_spec h₁ arg).2).grow kp
    have poa := (iha h₁).grow kp
    rw [← layOut_root h fn] at poa
    show Postorder _ _ (h₁.layOut arg).1.size
    rw [← layOut_root h₁ arg] at hg ⊢
    exact .two pof poa hg

/-! ### The mirror image -/

lemma Postorder.mirrored_var {name index} (po : h.Postorder start slot)
    (hg : h.get slot = .ok (.var name)) (po' : h'.PostAt (n + start) (.idx index) root)
    (rn : Node.ResolvesTo free scope n (.var name) (.idx index)) :
    root = n + slot ∧ ∀ path x node, h.follow slot path = some x → h.get x = .ok node →
      ∃ node', h'.get (n + x) = .ok node' ∧
        node.ResolvesTo free (h.scopeOn scope slot path) n node' := by
  cases po with
  | leaf _ _ =>
    cases po' with
    | idx hg' =>
      refine ⟨rfl, fun path x node e hx => ?_⟩
      rcases follow_eq_some hg e with ⟨rfl, rfl⟩ | ⟨i, part, q, rfl, hp, -⟩
      · cases hg.symm.trans hx
        exact ⟨_, hg', rn⟩
      · cases hp
  | one _ hg' hp =>
    cases hg.symm.trans hg'
    cases hp
  | two _ _ hg' => cases hg.symm.trans hg'

/-- If a term with names takes up the slots up to `slot` in postorder, and what it comes to takes up
slots in postorder that start `n` further on, then node for node comes to what stands `n` slots
further on. -/
lemma Postorder.mirrored (po : h.Postorder start slot) (un : h.UnfoldsNamed slot t)
    (rt : t.ResolvesTo free scope u) (po' : h'.PostAt (n + start) u root) :
    root = n + slot ∧ ∀ path x node, h.follow slot path = some x → h.get x = .ok node →
      ∃ node', h'.get (n + x) = .ok node' ∧
        node.ResolvesTo free (h.scopeOn scope slot path) n node' := by
  induction rt generalizing slot start root with
  | bound he hi =>
    cases un with
    | var hg => exact po.mirrored_var hg po' (.bound he hi)
  | free hn hf =>
    cases un with
    | var hg => exact po.mirrored_var hg po' (.free hn hf)
  | @abs scope binder body u rt ih =>
    cases un with
    | @abs _ bodySlot _ _ hg un =>
      cases po with
      | leaf hg' hp =>
        cases hg.symm.trans hg'
        cases hp
      | one po hg' hp =>
        cases hg.symm.trans hg'
        cases hp
        cases po' with
        | lam po' hg₁ =>
          obtain ⟨rfl, sub⟩ := ih po un po'
          refine ⟨rfl, fun path x node e hx => ?_⟩
          rcases follow_eq_some hg e with ⟨rfl, rfl⟩ | ⟨i, part, q, rfl, hp, eq⟩
          · cases hg.symm.trans hx
            exact ⟨_, hg₁, .abs binder bodySlot⟩
          · rw [scopeOn_cons hg hp]
            cases List.mem_singleton.1 (List.mem_of_getElem? hp)
            exact sub q x node eq hx
      | two _ _ hg' => cases hg.symm.trans hg'
  | app rt rt' ih ih' =>
    cases un with
    | app hg unf una =>
      cases po with
      | leaf hg' hp =>
        cases hg.symm.trans hg'
        cases hp
      | one po hg' hp =>
        cases hg.symm.trans hg'
        cases hp
      | two pof poa hg' =>
        cases hg.symm.trans hg'
        cases po' with
        | app pof' poa' hg₁ =>
          obtain ⟨rfl, subF⟩ := ih pof unf pof'
          obtain ⟨rfl, subA⟩ := ih' poa una poa'
          refine ⟨rfl, fun path x node e hx => ?_⟩
          rcases follow_eq_some hg e with ⟨rfl, rfl⟩ | ⟨i, part, q, rfl, hp, eq⟩
          · cases hg.symm.trans hx
            exact ⟨_, hg₁, .app _ _⟩
          · rw [scopeOn_cons hg hp]
            obtain rfl | rfl := List.mem_pair.1 (List.mem_of_getElem? hp)
            · exact subF q x node eq hx
            · exact subA q x node eq hx

end Heap

/-- The heap holds the nodes of the term and no others, in postorder. -/
structure Graph.LaysOut (g : Graph) (t : Term) : Prop where
  unfolds : g.heap.UnfoldsNamed g.root t
  size_eq : g.heap.size = t.size
  root_last : g.root + 1 = t.size
  /-- The nodes of the left part of a node stand before those of its right part. -/
  postorder : g.heap.Postorder 0 g.root
  /-- A walk leaves the nodes in the order in which they stand. -/
  walk : ∃ events : List Visit, g.heap.visits g.root = .ok events.toArray ∧
    events.filterMap Visit.left? = List.range t.size
  unique : ∀ x < t.size, ∃! path, g.heap.follow g.root path = some x
  parts_lt : ∀ x node, g.heap.get x = .ok node → ∀ part ∈ node.parts, part < x

/-- Behind the `n` nodes of the graph, the heap holds as many nodes with indices: what stands in
slot `x` comes to what stands in slot `n + x`. -/
structure Graph.MirroredBy (g : Graph) (n : Nat) (r : Resolved) : Prop where
  size_eq : r.graph.heap.size = 2 * n
  root_last : r.graph.root + 1 = 2 * n
  keeps : ∀ x < n, r.graph.heap.get x = g.heap.get x
  mirrored : ∀ x < n, ∃ path node node', g.heap.follow g.root path = some x ∧
    g.heap.get x = .ok node ∧ r.graph.heap.get (n + x) = .ok node' ∧
      node.ResolvesTo r.free (g.heap.scopeOn [] g.root path) n node'

namespace Graph

lemma laysOut_ofTerm (t : Term) : (ofTerm t).LaysOut t := by
  have po : (ofTerm t).heap.Postorder 0 (ofTerm t).root := Heap.layOut_postorder .empty t
  have last : (ofTerm t).root + 1 = t.size := by
    rw [← size_ofTerm t]
    exact Heap.layOut_root .empty t
  have le_root : ∀ x < t.size, x ≤ (ofTerm t).root := fun x lt =>
    Nat.le_of_lt_succ (lt.trans_eq last.symm)
  refine ⟨unfoldsNamed_ofTerm t, size_ofTerm t, last, po, ?_, fun x lt => ?_,
    fun x node hg part hm => ?_⟩
  · obtain ⟨n, en, walks⟩ := po.exists_walks
    rw [last, Nat.zero_add] at en
    subst en
    obtain ⟨es, wk, e⟩ := walks (ofTerm t).heap.depthBound (by
      rw [Heap.depthBound, size_ofTerm]
      exact Nat.le_succ t.size)
    exact ⟨es, wk.visits_eq, by rw [e, List.range_eq_range']⟩
  · obtain ⟨path, e⟩ := po.reaches (Nat.zero_le x) (le_root x lt)
    exact ⟨path, e, fun path' e' => po.spansTree path' path x e' e⟩
  · have lt := Heap.lt_size_of_get_eq_ok hg
    rw [size_ofTerm] at lt
    exact (po.part_mem (Nat.zero_le x) (le_root x lt) hg hm).2

/-- However a term looks, it is laid out with one node for each constructor, parts before wholes and
the left part first. The names of what was laid out can be resolved, by the recursion and by the
walk alike. What comes of it is as many nodes behind the first, each of which mirrors that in the
same place among the first: a node of the same kind with its parts in the mirrored slots, and for a
variable the index of its name. -/
theorem resolve_mirrors (t : Term) :
    (ofTerm t).LaysOut t ∧
      ∃ r, (ofTerm t).resolve = .ok r ∧ (ofTerm t).resolveByWalk = .ok (some r) ∧
        r.free.names = t.freeNames.eraseDups ∧ (ofTerm t).MirroredBy t.size r := by
  have lo := laysOut_ofTerm t
  refine ⟨lo, ?_⟩
  obtain ⟨r, e, bt, en⟩ := lo.unfolds.resolve_ok (height_le_ofTerm t)
  refine ⟨r, e, resolveByWalk_eq e, en, ?_⟩
  have rt := @Term.resolvesTo_toIndex r.free t [] fun x hx => by
    rwa [List.nil_append, en, List.mem_eraseDups]
  have po' := bt.post
  rw [lo.size_eq] at po'
  obtain ⟨er, mirrored⟩ := lo.postorder.mirrored lo.unfolds rt po'
  have es : r.graph.heap.size = 2 * t.size := by
    rw [bt.size_eq, lo.size_eq, Term.size_toIndex, Nat.two_mul]
  refine ⟨es, bt.root_eq.trans es, fun x lt => ?_, fun x lt => ?_⟩
  · exact bt.keeps.get_eq (lo.size_eq ▸ lt) (Finset.notMem_empty x)
  · obtain ⟨path, e, -⟩ := lo.unique x lt
    obtain ⟨node, hg⟩ := Heap.exists_get_of_lt (lo.size_eq ▸ lt)
    obtain ⟨node', hg', rn⟩ := mirrored path x node e hg
    exact ⟨path, node, node', e, hg, hg', rn⟩

/-- The body of an abstraction comes before the argument, and a name can be bound in the one and
free in the other. -/
example : (ofTerm (.app (.abs "x" (.app (.var "x") (.var "y"))) (.var "x"))).resolve.map
    (fun r => r.graph.heap.nodes) =
      .ok #[.var "x", .var "y", .app 0 1, .abs "x" 2, .var "x", .app 3 4,
        .idx 0, .idx 1, .app 6 7, .lam 8, .idx 1, .app 9 10] := by
  decide +kernel

end Graph

end WeakHead

import WeakHead.Proofs.Heap.Acyclic
import WeakHead.Proofs.Heap.Resolver
import WeakHead.Proofs.Heap.Unrolling
import WeakHead.Proofs.Term.Variables

/-!
# Resolution of terms that share nodes

The same node can stand for variables in several places of a term, bound in one and free in another.
Resolution follows the paths and not the nodes, so it gives each place an index of its own: the
result is a tree, whatever was shared.

Main statement: `resolve_named`.
-/

namespace WeakHead.Graph

open Heap

/-- If the root reaches only nodes with names, none of which is part of itself, all names can be
resolved. The new root stands for what the term comes to under the table, which lists its free names
in the order in which they first occur, and the new nodes are one for each path. A resolver that
follows the walk with two stacks gives the same and never gives up. -/
theorem resolve_named {g : Graph} (hs : g.root < g.heap.size)
    (named : ∀ x, g.heap.Reaches g.root x → g.heap.HoldsNames x)
    (acyclic : ∀ x, g.heap.Reaches g.root x →
      ∀ path, g.heap.follow x path = some x → path = []) :
    ∃ t u r, g.heap.UnfoldsNamed g.root t ∧ g.resolve = .ok r ∧
      r.graph.heap.Unfolds r.graph.root u ∧ t.ResolvesTo r.free [] u ∧
      r.free.names = t.freeNames.eraseDups ∧
      g.heap.Unrolls g.root r.graph.heap r.graph.root ∧
      g.resolveByWalk = .ok (some r) := by
  obtain ⟨t, un, hd⟩ := exists_unfoldsNamed hs named acyclic
  obtain ⟨r, e, bt, en⟩ := un.resolve_ok hd
  have un' := bt.tree.unfolds
  refine ⟨t, _, r, un, e, un', ?_, en, bt.unrolls (un.isSome_follow_eq un'),
    resolveByWalk_eq e⟩
  exact @Term.resolvesTo_toIndex r.free t [] fun x hx => by
    rwa [List.nil_append, en, List.mem_eraseDups]

/-- A node that stands for a bound variable and for a free one. -/
theorem resolve_named_bound_and_free :
    let g : Graph := ⟨⟨#[.var "x", .app 0 0, .abs "x" 1, .app 2 0]⟩, 3⟩
    ∃ r, g.resolve = .ok r ∧ r.free.names = ["x"] ∧
      g.heap.Unrolls g.root r.graph.heap r.graph.root ∧
      r.graph.heap.nodes =
        g.heap.nodes ++ #[.idx 0, .idx 0, .app 4 5, .lam 6, .idx 0, .app 7 8] := by
  intro g
  have result : g.resolve.map (fun r => (r.graph.heap.nodes, r.free.names)) =
      .ok (g.heap.nodes ++ #[.idx 0, .idx 0, .app 4 5, .lam 6, .idx 0, .app 7 8], ["x"]) := by
    decide +kernel
  have named : ∀ x < 4, g.heap.HoldsNames x
    | 0, _ => .inl ⟨"x", rfl⟩
    | 1, _ => .inr (.inr ⟨0, 0, rfl, by decide, by decide⟩)
    | 2, _ => .inr (.inl ⟨"x", 1, rfl, by decide⟩)
    | 3, _ => .inr (.inr ⟨2, 0, rfl, by decide, by decide⟩)
  have parts : ∀ x < 4, ∀ node ∈ g.heap.nodes[x]?, ∀ part ∈ node.parts, part < x := by decide
  have acyclic : g.heap.Acyclic := acyclic_of_parts_lt fun x node hg =>
    parts x (lt_size_of_get_eq_ok hg) node (get_eq_ok_iff.1 hg)
  obtain ⟨t, u, r, -, e, -, -, -, unrolls, -⟩ :=
    resolve_named (g := g) (by decide) (fun x hr => named x hr.lt_size) fun x _ => acyclic x
  obtain ⟨r', e', result⟩ := map_eq_ok_iff.1 result
  cases e.symm.trans e'
  obtain ⟨en, ef⟩ := Prod.mk.inj result
  exact ⟨r, e, ef, unrolls, en⟩

end WeakHead.Graph

import WeakHead.Proofs.Heap.Scope
import WeakHead.Proofs.Term.Alpha
import WeakHead.Proofs.Term.Variables

/-!
# Reading back and reading again

What is read back from a graph can be read as a source again. The binders get new names on the way,
and the free names new numbers if reduction has put them in another order or dropped some, but every
variable still stands for the same: for the same binder, or for the free name that it had in the
first table.

Main statement: `acts_read_back_names`.
-/

namespace WeakHead

namespace Graph

variable {g : Graph} {u : IndexTerm} {free : FreeNames}

/-- A graph is read back as a source that stands for the same, under a table of its own. -/
lemma IsTreeOf.reread (tr : g.IsTreeOf u) (cov : u.Covered free)
    (lx : ∀ name ∈ free.names, Lexable name) :
    ∃ text r', g.readback free = .ok text ∧ Term.parse text = .ok (u.readback free 0) ∧
      Resolved.read text = .ok r' ∧ r'.Stands (u.readback free 0) ∧
      IndexTerm.SameVariables free r'.free 0 u ((u.readback free 0).toIndex r'.free.names) := by
  obtain ⟨S, tr⟩ := tr
  have e := Term.parse_text (IndexTerm.allLexable_readback cov lx)
  obtain ⟨r', er, st⟩ := Resolved.read_ok e
  refine ⟨_, r', tr.readback_ok free, e, er, st, ?_⟩
  have same := @Term.sameVariables_toIndex free r'.free (u.readback free 0) []
    (fun x => IndexTerm.mem_of_mem_freeNames_readback cov) fun x => (st.mem_iff x).2
  rwa [List.nil_append, List.nil_append, IndexTerm.toIndex_readback cov] at same

end Graph

lemma FreeNames.eq_of_names_eq {free free' : FreeNames} (e : free.names = free'.names) :
    free = free' := by
  cases free
  cases free'
  cases e
  rfl

namespace Resolved.Stands

variable {r r' : Resolved} {t t' : Term}

/-- Terms that are the same up to the names of their binders are resolved alike. -/
lemma eq_of_alphaEq (st : r.Stands t) (st' : r'.Stands t') (al : t.AlphaEq t') :
    r.free = r'.free ∧ t.toIndex r.free.names = t'.toIndex r'.free.names := by
  have ef : r.free.names = r'.free.names := by
    rw [st.names_eq, st'.names_eq, al.freeNames_eq]
  refine ⟨FreeNames.eq_of_names_eq ef, ?_⟩
  rw [← ef, ← Term.alphaEq_iff fun x => (st.mem_iff x).2]
  · exact al
  · exact fun x hx => (st.mem_iff x).2 (al.freeNames_eq ▸ hx)

end Resolved.Stands

/-- However a graph that came from a source is stepped and compacted, what is read back from it is a
source again. Read and resolved, it has the shape of the graph, every bound index is the same, and
every free index has the name that it had before. If no step has found anything to do, all indices
and the table are those of the first source. -/
theorem Graph.acts_read_back_names {source t} (e : Term.parse source = .ok t) :
    ∃ r, Resolved.read source = .ok r ∧ ∀ actions g, r.graph.acts actions = .ok g →
      ∃ u text t' r' u', g.heap.Unfolds g.root u ∧ g.readback r.free = .ok text ∧
        Term.parse text = .ok t' ∧ Resolved.read text = .ok r' ∧
        r'.graph.heap.Unfolds r'.graph.root u' ∧
        IndexTerm.SameVariables r.free r'.free 0 u u' ∧
        ((.step ∈ actions → r.graph.heap.headRedex r.graph.root = .ok none) →
          r.graph.heap.Unfolds r.graph.root u' ∧ r'.free = r.free) := by
  obtain ⟨r, er, st⟩ := Resolved.read_ok e
  refine ⟨r, er, fun actions g ea => ?_⟩
  have tr := IsTreeOf.acts st.tree ea
  have cov := st.covered.acts actions
  obtain ⟨text, r', eb, et, er', st', same⟩ := tr.reread cov (st.lexable e)
  obtain ⟨S, tr⟩ := tr
  obtain ⟨S', tr'⟩ := st'.tree
  refine ⟨_, text, _, r', _, tr.unfolds, eb, et, er', tr'.unfolds, same, fun idle => ?_⟩
  -- The run has left the term as it was, so what was read back is the term of the source.
  obtain ⟨S₀, tr₀⟩ := st.tree
  have self := IndexTerm.acts_eq_self fun hm => tr₀.headRedex_eq_none_iff.1 (idle hm)
  rw [self] at st' ⊢
  have al := Term.alphaEq_readback fun x => (st.mem_iff x).2
  obtain ⟨ef, ei⟩ := st'.eq_of_alphaEq st al
  rw [ei]
  exact ⟨tr₀.unfolds, ef⟩

/-- A run after which the free names come in another order, and one of them is called as the binder
was that they are put under. -/
theorem Graph.acts_read_back_names_reordered :
    ∃ r g r' u u', Resolved.read "(λx.λa.(x (a b)) a)" = .ok r ∧
      r.graph.acts [.step, .compact] = .ok g ∧ g.readback r.free = .ok "λc.(a (c b))" ∧
      Resolved.read "λc.(a (c b))" = .ok r' ∧ r.free.names = ["b", "a"] ∧
      r'.free.names = ["a", "b"] ∧ g.heap.Unfolds g.root u ∧
      r'.graph.heap.Unfolds r'.graph.root u' ∧ IndexTerm.SameVariables r.free r'.free 0 u u' := by
  let t : Term :=
    .app (.abs "x" (.abs "a" (.app (.var "x") (.app (.var "a") (.var "b"))))) (.var "a")
  let t' : Term := .abs "c" (.app (.var "a") (.app (.var "c") (.var "b")))
  have e : Term.parse "(λx.λa.(x (a b)) a)" = .ok t :=
    Term.parse_text (show t.AllLexable from by decide +kernel)
  have e' : Term.parse "λc.(a (c b))" = .ok t' :=
    Term.parse_text (show t'.AllLexable from by decide +kernel)
  have run : ((Graph.ofTerm t).resolve.bind fun r =>
      (r.graph.acts [.step, .compact]).bind fun g =>
        (g.readback r.free).map fun text => (r.free.names, text)) =
      .ok (["b", "a"], "λc.(a (c b))") := by
    decide +kernel
  have free : (Graph.ofTerm t').resolve.map (fun r => r.free.names) = .ok ["a", "b"] := by
    decide +kernel
  obtain ⟨r, er, h⟩ := Graph.acts_read_back_names e
  obtain ⟨r₁, er₁, run⟩ := bind_eq_ok_iff.1 run
  cases (Resolved.read_of_resolve e er₁).symm.trans er
  obtain ⟨g, eg, run⟩ := bind_eq_ok_iff.1 run
  obtain ⟨text, eb, run⟩ := map_eq_ok_iff.1 run
  obtain ⟨ef, rfl⟩ := Prod.mk.inj run
  obtain ⟨u, text', -, r', u', un, eb', -, er', un', same, -⟩ := h _ g eg
  cases eb.symm.trans eb'
  obtain ⟨r₂, er₂, ef'⟩ := map_eq_ok_iff.1 free
  cases (Resolved.read_of_resolve e' er₂).symm.trans er'
  exact ⟨r, g, r', u, u', er, eg, eb, er', ef, ef', un, un', same⟩

end WeakHead

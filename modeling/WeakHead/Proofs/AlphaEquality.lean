import Mathlib.Data.List.TFAE
import Mathlib.Tactic.TFAE
import WeakHead.Proofs.Bracketed
import WeakHead.Proofs.RoundTrip

/-!
# Telling terms apart

The terms of two sources are the same up to the names of their binders if their resolved graphs look
the same and have the same table, and also if they are read back as the same text. So neither how a
binder is called, nor that another one or a free variable is called the same, leaves a trace.

Main statement: `alphaEq_tfae`.
-/

namespace WeakHead.Term

/-- Two sources stand for the same term up to the names of binders exactly if their resolved graphs
have the same bracketed form and list the same free names, and exactly if they are read back as the
same text. -/
theorem alphaEq_tfae {source source' t t'} (e : Term.parse source = .ok t)
    (e' : Term.parse source' = .ok t') :
    ∃ r r' b b' x x', Resolved.read source = .ok r ∧ Resolved.read source' = .ok r' ∧
      r.graph.bracketed = .ok b ∧ r'.graph.bracketed = .ok b' ∧
      r.graph.readback r.free = .ok x ∧ r'.graph.readback r'.free = .ok x' ∧
      List.TFAE [t.AlphaEq t', b = b' ∧ r.free.names = r'.free.names, x = x'] := by
  obtain ⟨r, er, st⟩ := Resolved.read_ok e
  obtain ⟨r', er', st'⟩ := Resolved.read_ok e'
  obtain ⟨S, tr⟩ := st.tree
  obtain ⟨S', tr'⟩ := st'.tree
  refine ⟨r, r', _, _, _, _, er, er', tr.bracketed_ok, tr'.bracketed_ok, tr.readback_ok r.free,
    tr'.readback_ok r'.free, ?_⟩
  tfae_have 1 → 2 := by
    intro al
    obtain ⟨ef, ei⟩ := st.eq_of_alphaEq st' al
    rw [ei, ef]
    exact ⟨rfl, rfl⟩
  tfae_have 2 → 3 := by
    rintro ⟨eb, en⟩
    rw [IndexTerm.bracketed_injective eb, FreeNames.eq_of_names_eq en]
  tfae_have 3 → 1 := by
    intro ex
    -- The text is read as one term, which is the same as both.
    have et := parse_text (IndexTerm.allLexable_readback st.covered (st.lexable e))
    have et' := parse_text (IndexTerm.allLexable_readback st'.covered (st'.lexable e'))
    rw [ex, et'] at et
    have al := alphaEq_readback fun x => (st.mem_iff x).2
    have al' := alphaEq_readback fun x => (st'.mem_iff x).2
    rw [Except.ok.inj et] at al'
    exact al.of_common al'
  tfae_finish

/-- Two sources that call their binders by different names, one of them also by a name that is free
further on, and hide an outer binder by an inner one. -/
theorem alphaEq_of_readback_eq_hidden :
    let t : Term := .app (.abs "x" (.abs "x" (.app (.var "x") (.var "y")))) (.var "x")
    let t' : Term := .app (.abs "x" (.abs "a" (.app (.var "a") (.var "y")))) (.var "x")
    Term.parse "(λx.λx.(x y) x)" = .ok t ∧ Term.parse "(λx.λa.(a y) x)" = .ok t' ∧
      t.AlphaEq t' ∧ ∃ r r', Resolved.read "(λx.λx.(x y) x)" = .ok r ∧
        Resolved.read "(λx.λa.(a y) x)" = .ok r' ∧
        r.graph.readback r.free = .ok "(λa.λb.(b y) x)" ∧
        r'.graph.readback r'.free = .ok "(λa.λb.(b y) x)" := by
  intro t t'
  have e : Term.parse "(λx.λx.(x y) x)" = .ok t :=
    Term.parse_text (show t.AllLexable from by decide +kernel)
  have e' : Term.parse "(λx.λa.(a y) x)" = .ok t' :=
    Term.parse_text (show t'.AllLexable from by decide +kernel)
  have text : ((Graph.ofTerm t).resolve.bind fun r => r.graph.readback r.free) =
      .ok "(λa.λb.(b y) x)" := by
    decide +kernel
  have text' : ((Graph.ofTerm t').resolve.bind fun r => r.graph.readback r.free) =
      .ok "(λa.λb.(b y) x)" := by
    decide +kernel
  obtain ⟨r, r', b, b', x, x', er, er', -, -, eb, eb', tfae⟩ := alphaEq_tfae e e'
  obtain ⟨r₁, er₁, text⟩ := bind_eq_ok_iff.1 text
  cases (Resolved.read_of_resolve e er₁).symm.trans er
  cases eb.symm.trans text
  obtain ⟨r₂, er₂, text'⟩ := bind_eq_ok_iff.1 text'
  cases (Resolved.read_of_resolve e' er₂).symm.trans er'
  cases eb'.symm.trans text'
  exact ⟨e, e', (tfae.out 0 2).2 rfl, r, r', er, er', text, text'⟩

end WeakHead.Term

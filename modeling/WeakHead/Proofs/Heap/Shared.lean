import WeakHead.Proofs.Heap.Acyclic
import WeakHead.Proofs.Heap.Readback
import WeakHead.Proofs.Heap.Run

/-!
# Terms with shared nodes

A slot may stand for a term although paths from it meet. Only the walks that change nothing are told
by the term alone then; but a way down still meets no slot twice, so every walk is deep enough.
-/

namespace WeakHead.Heap

variable {h : Heap} {slot : Slot} {t : IndexTerm} {depth : Nat}

/-! ### From nodes to terms -/

/-- A node with indices is there, and so are its parts. -/
lemma HoldsIndices.parts_lt (hi : h.HoldsIndices slot) :
    ∃ node, h.get slot = .ok node ∧ ∀ part ∈ node.parts, part < h.size := by
  rcases hi with ⟨index, hg⟩ | ⟨body, hg, hb⟩ | ⟨fn, arg, hg, hf, ha⟩
  · exact ⟨_, hg, by simp [Node.parts]⟩
  · exact ⟨_, hg, by simpa [Node.parts] using hb⟩
  · exact ⟨_, hg, by simpa [Node.parts] using ⟨hf, ha⟩⟩

/-- A slot that reaches only nodes with indices, and never itself, stands for a term. -/
lemma EndsWithin.exists_unfolds (en : h.EndsWithin depth slot)
    (indexed : ∀ x, h.Reaches slot x → h.HoldsIndices x) : ∃ t, h.Unfolds slot t := by
  induction depth generalizing slot with
  | zero => exact absurd en id
  | succ depth ih =>
    obtain ⟨node, hg, en⟩ := en
    have sub : ∀ (i : Nat) part, node.parts[i]? = some part → ∃ t, h.Unfolds part t :=
      fun i part hp => ih (en part (List.mem_of_getElem? hp)) fun x hr =>
        indexed x (hr.of_part hg hp)
    rcases indexed slot (reaches_self (lt_size_of_get_eq_ok hg)) with
      ⟨index, hg'⟩ | ⟨body, hg', -⟩ | ⟨fn, arg, hg', -, -⟩ <;> cases hg.symm.trans hg'
    · exact ⟨_, .idx hg⟩
    · obtain ⟨t, un⟩ := sub 0 body rfl
      exact ⟨_, .lam hg un⟩
    · obtain ⟨t, un⟩ := sub 0 fn rfl
      obtain ⟨u, un'⟩ := sub 1 arg rfl
      exact ⟨_, .app hg un un'⟩

/-! ### From terms to nodes -/

namespace Unfolds

lemma endsWithin (un : h.Unfolds slot t) : h.EndsWithin t.height slot := by
  induction un with
  | idx hg => exact ⟨_, hg, by simp [Node.parts]⟩
  | lam hg _ ih => exact ⟨_, hg, by simpa [Node.parts] using ih⟩
  | app hg _ _ ihf iha =>
    refine ⟨_, hg, ?_⟩
    simpa [Node.parts] using ⟨ihf.mono (Nat.le_max_left _ _), iha.mono (Nat.le_max_right _ _)⟩

/-- What is reached stands for a term. -/
lemma of_reaches (un : h.Unfolds slot t) {x} (hr : h.Reaches slot x) : ∃ u, h.Unfolds x u := by
  obtain ⟨p, e⟩ := hr
  induction p generalizing slot t with
  | nil =>
    obtain ⟨node, hg⟩ := un.exists_node
    rw [follow_nil hg] at e
    cases e
    exact ⟨t, un⟩
  | cons i p ih =>
    cases un with
    | idx hg =>
      rw [follow_cons hg] at e
      cases e
    | lam hg unb =>
      rw [follow_cons hg, Option.bind_eq_some_iff] at e
      obtain ⟨part, hp, e⟩ := e
      cases List.mem_singleton.1 (List.mem_of_getElem? hp)
      exact ih unb e
    | app hg unf una =>
      rw [follow_cons hg, Option.bind_eq_some_iff] at e
      obtain ⟨part, hp, e⟩ := e
      cases List.mem_pair.1 (List.mem_of_getElem? hp) with
      | inl ep => exact ih unf (ep ▸ e)
      | inr ep => exact ih una (ep ▸ e)

lemma holdsIndices (un : h.Unfolds slot t) : h.HoldsIndices slot := by
  cases un with
  | idx hg => exact .inl ⟨_, hg⟩
  | lam hg unb => exact .inr (.inl ⟨_, hg, unb.lt_size⟩)
  | app hg unf una => exact .inr (.inr ⟨_, _, hg, unf.lt_size, una.lt_size⟩)

end Unfolds

/-- A slot stands for a term exactly if it is in the heap and reaches only nodes with indices, none
of which is part of itself. -/
lemma exists_unfolds_iff :
    (∃ t, h.Unfolds slot t) ↔ slot < h.size ∧ (∀ x, h.Reaches slot x → h.HoldsIndices x) ∧
      ∀ x, h.Reaches slot x → ∀ path, h.follow x path = some x → path = [] := by
  constructor
  · rintro ⟨t, un⟩
    refine ⟨un.lt_size, fun x hr => ?_, fun x hr path e => ?_⟩ <;>
      obtain ⟨u, unx⟩ := un.of_reaches hr
    · exact unx.holdsIndices
    · exact unx.endsWithin.eq_nil_of_follow e
  · rintro ⟨hs, indexed, acyclic⟩
    exact (endsWithin_of_acyclic (fun x hx => (indexed x hx).parts_lt) acyclic hs).exists_unfolds
      indexed

end WeakHead.Heap

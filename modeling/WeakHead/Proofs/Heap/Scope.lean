import WeakHead.Proofs.Heap.Run
import WeakHead.Proofs.Term.Naming

/-!
# Scope safety

The table of a source has a name for every free slot of its term, and no run ever refers to a free
slot that was not referred to before. So an index never counts past the binders around it and the
table. As long as the heap is not larger than heaps can be, this keeps every index and every counter
of binders in range, and so no operation stops with a fault and every readback finds its names.

Main statement: `acts_stay_in_scope`.
-/

namespace WeakHead

/-- Heaps have fewer nodes than this. -/
def heapBound : Nat := 9223372036854775808

/-- Where a heap and twice the table are below the bound for heaps, indices have room for both. -/
lemma size_add_size_le {h : Heap} {free : FreeNames} (hs : h.size < heapBound)
    (hf : 2 * free.size ≤ heapBound) : h.size + free.size ≤ indexBound := by
  simp only [heapBound, indexBound] at *
  omega

namespace IndexTerm

variable {t : IndexTerm} {free : FreeNames}

/-- A run keeps all free slots in the table. -/
lemma Covered.acts (cov : t.Covered free) (actions) : (t.acts actions).Covered free :=
  fun s hs => cov s hs.of_acts

/-- Every free slot in the table has a name. -/
lemma Covered.exists_name (cov : t.Covered free) {s} (hs : t.FreeSlot s) :
    ∃ name, free.name? s = some name :=
  ⟨_, List.getElem?_eq_getElem (cov s hs)⟩

/-- Only the names of free slots count for the term with names. -/
lemma named_congr {binder free free' : Nat → String} {depth}
    (e : ∀ s, t.FreeSlot (depth + s) → free s = free' s) :
    t.named binder free depth = t.named binder free' depth := by
  induction t generalizing depth with
  | idx index =>
    rw [named, named]
    split
    · rfl
    · rw [e (index - depth) (freeSlot_idx_iff.2 (by omega))]
  | lam body ih =>
    rw [named, named, ih]
    intro s hs
    refine e s (freeSlot_lam_iff.2 ?_)
    rwa [Nat.add_right_comm]
  | app fn arg ihf iha =>
    rw [named, named, ihf fun s hs => e s (freeSlot_app_iff.2 (.inl hs)),
      iha fun s hs => e s (freeSlot_app_iff.2 (.inr hs))]

/-- The readback of a term with all its free slots in the table hangs on the names in the table
only: the text for a number without a name is never written. -/
lemma Covered.readback_eq (cov : t.Covered free) {name : Nat → String}
    (en : ∀ s x, free.name? s = some x → name s = x) :
    t.readback free 0 = t.named (BinderNames.binderName free.names) name 0 := by
  refine named_congr fun s hs => ?_
  rw [Nat.zero_add] at hs
  obtain ⟨x, ex⟩ := cov.exists_name hs
  rw [freeText_eq ex, en s x ex]

end IndexTerm

namespace Resolved.Stands

variable {r : Resolved} {t : Term}

/-- The table of a source has a name for every free slot. -/
lemma covered (st : r.Stands t) : (t.toIndex r.free.names).Covered r.free :=
  Term.covered_toIndex fun x => (st.mem_iff x).2

/-- The names in the table of a source can be read. -/
lemma lexable (st : r.Stands t) {source} (e : Term.parse source = .ok t) :
    ∀ name ∈ r.free.names, Lexable name :=
  fun name hm => (Term.allLexable_of_parse e).of_mem_freeNames ((st.mem_iff name).1 hm)

/-- The table of a source is no longer than half the heap. -/
lemma size_free_le (st : r.Stands t) : 2 * r.free.size ≤ r.graph.heap.size := by
  have sub : r.free.names ⊆ t.freeNames := fun x hx => (st.mem_iff x).1 hx
  have le := (List.subperm_of_subset r.free.nodup sub).length_le
  have le' := t.length_freeNames_le
  rw [st.size_eq]
  exact Nat.mul_le_mul_left 2 (le.trans le')

end Resolved.Stands

namespace Graph

variable {g : Graph} {t : IndexTerm} {free : FreeNames}

/-- Both actions succeed on a tree of a term with all its free slots in the table. -/
lemma IsTreeOf.exists_act (tr : g.IsTreeOf t) (cov : t.Covered free)
    (hb : g.heap.size + free.size ≤ indexBound) (a) : ∃ g', g.act a = .ok g' := by
  cases a with
  | compact => exact tr.exists_compact
  | step =>
    have hs : t.size ≤ g.heap.size := by
      obtain ⟨S, tr⟩ := tr
      exact tr.size_le
    have hb : t.size + free.size ≤ indexBound := by omega
    have hr := IndexTerm.inRange_of_freeSlot_lt cov hb
    have fits := IndexTerm.headStepFits_iff hr (by omega)
    exact tr.exists_step_iff.2 (fits.2 (IndexTerm.headStepInRange_of_freeSlot_lt cov hb))

/-- A run succeeds if no heap on its way is larger than heaps can be. -/
lemma IsTreeOf.exists_acts (tr : g.IsTreeOf t) (cov : t.Covered free)
    (hf : 2 * free.size ≤ heapBound) (actions)
    (hs : ∀ before g', before <+: actions → g.acts before = .ok g' → g'.heap.size < heapBound) :
    ∃ g', g.acts actions = .ok g' := by
  induction actions generalizing g t with
  | nil => exact ⟨g, rfl⟩
  | cons a actions ih =>
    -- The first heap is that of the empty run; the others are those of runs that start with `a`.
    have hb := size_add_size_le (hs [] g List.nil_prefix rfl) hf
    obtain ⟨g₁, ea⟩ := tr.exists_act cov hb a
    obtain ⟨g', e⟩ := ih (tr.act ea) (cov.acts [a]) fun before g' hp e => by
      refine hs (a :: before) g' (List.cons_prefix_cons.2 ⟨rfl, hp⟩) ?_
      exact bind_eq_ok_iff.2 ⟨g₁, ea, e⟩
    exact ⟨g', bind_eq_ok_iff.2 ⟨g₁, ea, e⟩⟩

/-- A run from a source that stays within the bound for heaps never refers to an index past the
binders around it and the table, nor to a free slot that was not referred to before. So nothing that
can be done with the graph stops with a fault, and the readback finds the name of every free
variable. -/
theorem acts_stay_in_scope {source t} (e : Term.parse source = .ok t) :
    ∃ r, Resolved.read source = .ok r ∧ ∀ actions,
      (∀ before g, before <+: actions → r.graph.acts before = .ok g → g.heap.size < heapBound) →
      ∃ g u, r.graph.acts actions = .ok g ∧ g.heap.Unfolds g.root u ∧
        (∀ n k, u.Occurs n k → k < n + r.free.size) ∧
        (∀ before, before <+: actions → ∃ g₁ u₁, r.graph.acts before = .ok g₁ ∧
          g₁.heap.Unfolds g₁.root u₁ ∧ ∀ s, u.FreeSlot s → u₁.FreeSlot s) ∧
        (∃ found, g.heap.headRedex g.root = .ok found) ∧
        (∃ next, g.heap.step g.root = .ok next) ∧
        (∃ c, g.compact = .ok c) ∧
        (∃ text, g.bracketed = .ok text) ∧
        (∀ s, u.FreeSlot s → ∃ name, r.free.name? s = some name) ∧
        ∀ name : Nat → String, (∀ s x, r.free.name? s = some x → name s = x) →
          g.readback r.free = .ok (u.named (BinderNames.binderName r.free.names) name 0).text := by
  obtain ⟨r, er, st⟩ := Resolved.read_ok e
  refine ⟨r, er, fun actions hs => ?_⟩
  -- Every start of the run succeeds and ends in a tree.
  have run : ∀ before, before <+: actions → ∃ g, r.graph.acts before = .ok g ∧
      g.heap.size < heapBound ∧ g.IsTreeOf ((t.toIndex r.free.names).acts before) := by
    intro before hp
    have hf := st.size_free_le.trans (Nat.le_of_lt (hs [] _ List.nil_prefix rfl))
    obtain ⟨g, ea⟩ := IsTreeOf.exists_acts st.tree st.covered hf before fun first g' hq =>
      hs first g' (hq.trans hp)
    exact ⟨g, ea, hs before g hp ea, IsTreeOf.acts st.tree ea⟩
  obtain ⟨g, ea, hlt, S, tr⟩ := run actions (List.prefix_refl actions)
  have cov := st.covered.acts actions
  refine ⟨g, _, ea, tr.unfolds, IndexTerm.forall_freeSlot_lt_iff.1 cov, fun before hp => ?_,
    tr.headRedex_ok, ?_, ?_, ⟨_, tr.bracketed_ok⟩, fun s => cov.exists_name, fun name en => ?_⟩
  · obtain ⟨g₁, ea₁, -, S₁, tr₁⟩ := run before hp
    refine ⟨g₁, _, ea₁, tr₁.unfolds, fun s h => ?_⟩
    obtain ⟨after, rfl⟩ := hp
    rw [IndexTerm.acts, List.foldl_append] at h
    exact h.of_acts
  · have hf := st.size_free_le.trans (Nat.le_of_lt (hs [] _ List.nil_prefix rfl))
    obtain ⟨g', e'⟩ := IsTreeOf.exists_act ⟨S, tr⟩ cov (size_add_size_le hlt hf) .step
    obtain ⟨next, en, -⟩ := map_eq_ok_iff.1 e'
    exact ⟨next, en⟩
  · obtain ⟨c, ec, -⟩ := tr.compact_ok
    exact ⟨c, ec⟩
  · rw [tr.readback_ok, cov.readback_eq en]

/-- A run in which an argument with a free name is put under a binder. -/
theorem acts_stay_in_scope_under_binder :
    ∃ r g, Resolved.read "(λx.λy.(x y) (z z))" = .ok r ∧ r.graph.acts [.step, .compact] = .ok g ∧
      (∃ next, g.heap.step g.root = .ok next) ∧
      ∃ u : IndexTerm, g.heap.Unfolds g.root u ∧
        g.readback r.free =
          .ok (u.named (BinderNames.binderName r.free.names) (fun _ => "z") 0).text := by
  let t : Term :=
    .app (.abs "x" (.abs "y" (.app (.var "x") (.var "y")))) (.app (.var "z") (.var "z"))
  have e : Term.parse "(λx.λy.(x y) (z z))" = .ok t :=
    Term.parse_text (show t.AllLexable from by decide +kernel)
  have sizes : ∀ before ∈ List.inits [Action.step, .compact],
      ((Graph.ofTerm t).resolve.bind fun r =>
        (r.graph.acts before).map fun g => decide (g.heap.size < heapBound)) = .ok true := by
    decide +kernel
  have free : (Graph.ofTerm t).resolve.map (fun r => r.free.names) = .ok ["z"] := by
    decide +kernel
  obtain ⟨r, er, h⟩ := acts_stay_in_scope e
  obtain ⟨r', er', ef⟩ := map_eq_ok_iff.1 free
  cases (Resolved.read_of_resolve e er').symm.trans er
  have below : ∀ before g, before <+: [Action.step, .compact] → r.graph.acts before = .ok g →
      g.heap.size < heapBound := by
    intro before g hp eg
    have hlt := sizes before ((List.mem_inits _ _).2 hp)
    rw [er'] at hlt
    obtain ⟨g', eg', hlt⟩ := map_eq_ok_iff.1 hlt
    rw [eg] at eg'
    cases eg'
    exact of_decide_eq_true hlt
  obtain ⟨g, u, eg, un, -, -, -, step, -, -, -, readback⟩ := h [.step, .compact] below
  refine ⟨r, g, er, eg, step, u, un, readback _ fun s x es => ?_⟩
  rw [FreeNames.name?, ef, List.getElem?_singleton] at es
  split at es
  · exact Option.some.inj es
  · cases es

end Graph

end WeakHead

import Mathlib.Data.Set.Card
import WeakHead.Proofs.Heap.Compaction
import WeakHead.Proofs.Heap.Contraction
import WeakHead.Proofs.Heap.Readback
import WeakHead.Proofs.Heap.Resolution
import WeakHead.Proofs.Heap.Walk
import WeakHead.Proofs.Term.Printing

/-!
# Runs of steps and compactions

A graph that came from a source can be reduced by steps and compacted in between, in any order. On
the side of the term a step is a head step and a compaction is nothing at all; on the side of the
heap both keep the tree. So no node under the root is ever reached by two paths, whatever was
duplicated or left behind on the way.

Main statement: `acts_keep_tree`.
-/

namespace WeakHead

/-- What is done to a graph in a run. -/
inductive Action where
  /-- The redex on the spine is contracted, if there is one. -/
  | step
  /-- The nodes that the root reaches are moved to a heap of their own. -/
  | compact
deriving DecidableEq, Repr

namespace IndexTerm

/-- What an action does to the term of a graph. -/
def act (t : IndexTerm) : Action → IndexTerm
  | .step => t.headStep?.getD t
  | .compact => t

/-- What a run does to the term of a graph. -/
def acts (t : IndexTerm) (actions : List Action) : IndexTerm :=
  actions.foldl act t

/-- A run leaves the term as it is if its steps find nothing to do. -/
lemma acts_eq_self {t : IndexTerm} {actions : List Action}
    (idle : .step ∈ actions → t.headStep? = none) : t.acts actions = t := by
  induction actions with
  | nil => rfl
  | cons a actions ih =>
    have ea : t.act a = t := by
      cases a with
      | compact => rfl
      | step => rw [act, idle List.mem_cons_self, Option.getD_none]
    rw [acts, List.foldl_cons, ea]
    exact ih fun hm => idle (List.mem_cons_of_mem a hm)

/-- An action refers to no free slot that was not referred to before. -/
lemma FreeSlot.of_act {t : IndexTerm} {a s} (hs : (t.act a).FreeSlot s) : t.FreeSlot s := by
  cases a with
  | compact => exact hs
  | step =>
    rw [act] at hs
    cases e : t.headStep? with
    | none => rwa [e] at hs
    | some u =>
      rw [e] at hs
      exact hs.of_headStep e

/-- A run refers to no free slot that was not referred to before. -/
lemma FreeSlot.of_acts {t : IndexTerm} {actions s} (hs : (t.acts actions).FreeSlot s) :
    t.FreeSlot s := by
  induction actions generalizing t with
  | nil => exact hs
  | cons a actions ih => exact (ih hs).of_act

end IndexTerm

namespace Graph

/-- The graph after an action. -/
def act (g : Graph) : Action → Except Fault Graph
  | .step => (g.heap.step g.root).map fun (heap, _) => ⟨heap, g.root⟩
  | .compact => g.compact.map Compacted.graph

/-- The graph after a run. -/
def acts (g : Graph) : List Action → Except Fault Graph
  | [] => .ok g
  | a :: actions => (g.act a).bind fun g => g.acts actions

/-- The root of the graph stands for the term, and no two paths from it meet. -/
def IsTreeOf (g : Graph) (t : IndexTerm) : Prop :=
  ∃ S, g.heap.TreeAt g.root t S

variable {g g' : Graph} {t : IndexTerm}

/-! ### What an action keeps -/

/-- A step succeeds exactly if its passes stay in range. -/
lemma IsTreeOf.exists_step_iff (tr : g.IsTreeOf t) :
    (∃ g', g.act .step = .ok g') ↔ t.HeadStepFits := by
  obtain ⟨S, tr⟩ := tr
  simp only [act, map_eq_ok_iff]
  cases e : t.headStep? with
  | none =>
    exact iff_of_true ⟨_, _, tr.step_of_none e, rfl⟩ (IndexTerm.headStepFits_of_none e)
  | some t' =>
    rw [← (tr.step_of_some e).1]
    exact ⟨fun ⟨_, r, es, _⟩ => ⟨r, es⟩, fun ⟨r, es⟩ => ⟨_, r, es, rfl⟩⟩

/-- A compaction always succeeds. -/
lemma IsTreeOf.exists_compact (tr : g.IsTreeOf t) : ∃ g', g.act .compact = .ok g' := by
  obtain ⟨S, tr⟩ := tr
  obtain ⟨c, e, -⟩ := tr.compact_ok
  exact ⟨c.graph, map_eq_ok_iff.2 ⟨c, e, rfl⟩⟩

/-- An action that succeeds keeps the tree and does to the heap what it does to the term. -/
lemma IsTreeOf.act {a} (tr : g.IsTreeOf t) (e : g.act a = .ok g') : g'.IsTreeOf (t.act a) := by
  obtain ⟨S, tr⟩ := tr
  cases a with
  | compact =>
    obtain ⟨c, ec, rfl⟩ := map_eq_ok_iff.1 e
    obtain ⟨c', ec', -, -, tr', -⟩ := tr.compact_ok
    rw [ec] at ec'
    cases ec'
    exact ⟨_, tr'⟩
  | step =>
    obtain ⟨r, es, rfl⟩ := map_eq_ok_iff.1 e
    rw [IndexTerm.act]
    cases et : t.headStep? with
    | none =>
      rw [tr.step_of_none et] at es
      cases es
      exact ⟨S, tr⟩
    | some t' =>
      obtain ⟨slot, -, ⟨S', tr', -⟩, -⟩ := (tr.step_of_some et).2 r es
      exact ⟨S', tr'⟩

/-- A run that succeeds keeps the tree and does to the heap what it does to the term. -/
lemma IsTreeOf.acts {actions} (tr : g.IsTreeOf t) (e : g.acts actions = .ok g') :
    g'.IsTreeOf (t.acts actions) := by
  induction actions generalizing g t with
  | nil =>
    cases e
    exact tr
  | cons a actions ih =>
    obtain ⟨g₁, ea, e⟩ := bind_eq_ok_iff.1 e
    exact ih (tr.act ea) e

end Graph

/-! ### What a tree is good for -/

namespace Heap

/-- The slot holds a node with indices, and the parts of that node are in the heap. -/
def HoldsIndices (h : Heap) (slot : Slot) : Prop :=
  (∃ index, h.get slot = .ok (.idx index)) ∨
    (∃ body, h.get slot = .ok (.lam body) ∧ body < h.size) ∨
      ∃ fn arg, h.get slot = .ok (.app fn arg) ∧ fn < h.size ∧ arg < h.size

/-- All nodes of a tree have indices, and their parts are in the heap. -/
lemma TreeAt.holdsIndices {h : Heap} {slot t S} (tr : h.TreeAt slot t S) {x} (hx : x ∈ S) :
    h.HoldsIndices x := by
  induction tr with
  | idx hg =>
    cases Finset.mem_singleton.1 hx
    exact .inl ⟨_, hg⟩
  | lam hg trb _ ih =>
    cases Finset.mem_insert.1 hx with
    | inl e =>
      cases e
      exact .inr (.inl ⟨_, hg, trb.lt_size trb.root_mem⟩)
    | inr hx => exact ih hx
  | app hg trf tra _ _ _ ihf iha =>
    cases Finset.mem_insert.1 hx with
    | inl e =>
      cases e
      exact .inr (.inr ⟨_, _, hg, trf.lt_size trf.root_mem, tra.lt_size tra.root_mem⟩)
    | inr hx =>
      cases Finset.mem_union.1 hx with
      | inl hx => exact ihf hx
      | inr hx => exact iha hx

/-- From what spans a tree no path comes round to where it was. -/
lemma SpansTree.eq_nil_of_follow {h : Heap} {slot x p} (sp : h.SpansTree slot)
    (hr : h.Reaches slot x) (e : h.follow x p = some x) : p = [] := by
  obtain ⟨q, eq⟩ := hr
  have es := sp q (q ++ p) x eq (by rw [follow_append eq, e])
  exact List.self_eq_append_right.1 es

end Heap

namespace Graph

/-- The slots that the root of a graph reaches. -/
def live (g : Graph) : Set Slot :=
  Set.ofPred (g.heap.Reaches g.root)

variable {g : Graph} {t : IndexTerm} {S : Finset Slot}

/-- The slots of the tree at the root are live, and no others. -/
lemma live_eq (tr : g.heap.TreeAt g.root t S) : g.live = ↑S :=
  Set.ext fun _ => tr.mem_iff_reaches.symm

/-- There are as many live slots as the term has nodes. -/
lemma ncard_live (tr : g.heap.TreeAt g.root t S) : g.live.ncard = t.size := by
  rw [live_eq tr, Set.ncard_coe_finset, tr.card_eq]

/-- However a graph that came from a source is stepped and compacted, its live nodes have indices
and form a tree: each is reached by exactly one path, so none is shared and none is part of itself.
All walks from the root come to an end, and both the size and a compaction count the live nodes. -/
theorem acts_keep_tree {source t} (e : Term.parse source = .ok t) :
    ∃ r, Resolved.read source = .ok r ∧ ∀ actions g, r.graph.acts actions = .ok g →
      g.root ∈ g.live ∧
      (∀ x ∈ g.live, g.heap.HoldsIndices x ∧ (∃! path, g.heap.follow g.root path = some x) ∧
        ∀ path, g.heap.follow x path = some x → path = []) ∧
      g.size = .ok g.live.ncard ∧
      (∃ text, g.bracketed = .ok text) ∧
      (∀ free, ∃ text, g.readback free = .ok text) ∧
      (∃ events : List Visit, g.heap.visits g.root = .ok events.toArray ∧ events.Nodup ∧
        ∀ x, (.enter x ∈ events ↔ x ∈ g.live) ∧ (.leave x ∈ events ↔ x ∈ g.live)) ∧
      ∃ c, g.compact = .ok c ∧ c.live = g.live.ncard := by
  obtain ⟨r, er, st⟩ := Resolved.read_ok e
  refine ⟨r, er, fun actions g ea => ?_⟩
  obtain ⟨S, tr⟩ := IsTreeOf.acts st.tree ea
  obtain ⟨es, ev, tour⟩ := tr.visits_ok
  obtain ⟨c, ec, el, -⟩ := tr.compact_ok
  have sp := tr.spansTree
  rw [ncard_live tr, live_eq tr]
  refine ⟨tr.root_mem, fun x hx => ?_, tr.sizeFrom_ok, ⟨_, tr.bracketed_ok⟩,
    fun free => ⟨_, tr.readback_ok free⟩,
    ⟨es, ev, tour.nodup, fun x => ⟨tour.enter_iff x, tour.leave_iff x⟩⟩, ⟨c, ec, el⟩⟩
  have hr := tr.mem_iff_reaches.1 hx
  refine ⟨tr.holdsIndices hx, ?_, fun path ep => sp.eq_nil_of_follow hr ep⟩
  obtain ⟨p, ep⟩ := hr
  exact ⟨p, ep, fun q eq => sp q p x eq ep⟩

/-- A run that duplicates an argument, compacts the heap and contracts one of the copies. -/
theorem acts_keep_tree_duplicated :
    ∃ r g, Resolved.read "(λx.(x x) λy.(y z))" = .ok r ∧
      r.graph.acts [.step, .compact, .step] = .ok g ∧ g.heap.size = 13 ∧
      g.size = .ok g.live.ncard ∧ ∃ c, g.compact = .ok c ∧ c.live = g.live.ncard := by
  let t : Term :=
    .app (.abs "x" (.app (.var "x") (.var "x"))) (.abs "y" (.app (.var "y") (.var "z")))
  have e : Term.parse "(λx.(x x) λy.(y z))" = .ok t :=
    Term.parse_text (show t.AllLexable from by decide +kernel)
  have run : ((Graph.ofTerm t).resolve.bind fun r =>
      (r.graph.acts [.step, .compact, .step]).map fun g => g.heap.size) = .ok 13 := by
    decide +kernel
  obtain ⟨r, er, h⟩ := acts_keep_tree e
  obtain ⟨r', er', run⟩ := bind_eq_ok_iff.1 run
  obtain ⟨g, eg, es⟩ := map_eq_ok_iff.1 run
  cases (Resolved.read_of_resolve e er').symm.trans er
  obtain ⟨-, -, size, -, -, -, compact⟩ := h _ g eg
  exact ⟨r, g, er, eg, es, size, compact⟩

end Graph

end WeakHead

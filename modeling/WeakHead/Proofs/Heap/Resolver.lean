import WeakHead.Heap.Resolver
import WeakHead.Proofs.Heap.Resolution
import WeakHead.Proofs.Heap.Walk

/-!
# The stacks of the resolver

While a walk goes over a term, the resolver leaves the stacks as they were below what it adds: when
the walk comes out of the term, the binders are those from before and one root lies on top of the
others. So the resolver never gives up on a term with names, and has in the end one root, that of
the term.
-/

namespace WeakHead

open Heap

namespace Resolver

variable {h : Heap} {slot : Slot} {node : Node}

/-- Nothing happens where a node is entered that is no abstraction. -/
lemma run_enter (hg : h.get slot = .ok node) (hn : ∀ binder body, node ≠ .abs binder body) (es r) :
    run h (.enter slot :: es) r = run h es r := by
  rw [run, visit, get_eq_ok_iff.1 hg]
  cases node with
  | abs binder body => exact absurd rfl (hn binder body)
  | _ => rfl

lemma run_enter_abs {binder body} (hg : h.get slot = .ok (.abs binder body)) (es r) :
    run h (.enter slot :: es) r = run h es { r with scope := binder :: r.scope } := by
  rw [run, visit, get_eq_ok_iff.1 hg]
  rfl

/-- Where a node is left, its new node is made. -/
lemma run_leave (hg : h.get slot = .ok node) (es r) :
    run h (.leave slot :: es) r = (r.leave h.size node).bind (run h es) := by
  rw [run, visit, get_eq_ok_iff.1 hg]
  rfl

lemma leave_abs (base binder slot scope r body built) :
    leave ⟨binder :: scope, r, body :: built⟩ base (.abs binder slot) =
      some (emit ⟨scope, r, body :: built⟩ base (.lam body) built) := by
  show (if binder = binder then _ else _) = _
  rw [if_pos rfl]

end Resolver

namespace Resolution

variable {h : Heap} {slot : Slot} {depth : Nat} {scope : List String} {r r' : Resolution}
  {root : Slot}

/-- What can be resolved is a node with names. -/
lemma eq_ok_of_within (e : within h (depth + 1) scope slot r = .ok (root, r')) :
    (∃ name, h.get slot = .ok (.var name)) ∨ (∃ binder body, h.get slot = .ok (.abs binder body)) ∨
      ∃ fn arg, h.get slot = .ok (.app fn arg) := by
  obtain ⟨node, hg, e⟩ := bind_eq_ok_iff.1 e
  cases node with
  | var name => exact .inl ⟨name, hg⟩
  | abs binder body => exact .inr (.inl ⟨binder, body, hg⟩)
  | app fn arg => exact .inr (.inr ⟨fn, arg, hg⟩)
  | idx index => cases e
  | lam body =>
    obtain ⟨_, _, e⟩ := bind_eq_ok_iff.1 e
    cases e

/-- Whatever can be resolved is resolved by the walk over it. The walk goes on behind it with the
new root on the stack. -/
lemma exists_walks (e : within h depth scope slot r = .ok (root, r')) :
    ∃ es, h.Walks depth slot es ∧ ∀ built rest,
      Resolver.run h (es ++ rest) ⟨scope, r, built⟩ =
        Resolver.run h rest ⟨scope, r', root :: built⟩ := by
  induction depth generalizing slot scope r r' root with
  | zero => cases e
  | succ depth ih =>
    rcases eq_ok_of_within e with ⟨name, hg⟩ | ⟨binder, body, hg⟩ | ⟨fn, arg, hg⟩
    · rw [within_var hg] at e
      cases e
      refine ⟨_, walks_leaf hg rfl depth, fun built rest => ?_⟩
      rw [List.cons_append, List.cons_append, List.nil_append, Resolver.run_enter hg (by simp),
        Resolver.run_leave hg]
      rfl
    · rw [within_abs hg] at e
      obtain ⟨⟨bodyRoot, r₁⟩, eb, e⟩ := map_eq_ok_iff.1 e
      cases e
      obtain ⟨es, wk, run⟩ := ih eb
      refine ⟨_, wk.one hg rfl, fun built rest => ?_⟩
      rw [List.cons_append, List.cons_append, List.append_assoc, Resolver.run_enter_abs hg, run,
        List.singleton_append, Resolver.run_leave hg, Resolver.leave_abs]
      rfl
    · rw [within_app hg] at e
      obtain ⟨⟨fnRoot, r₁⟩, ef, e⟩ := bind_eq_ok_iff.1 e
      obtain ⟨⟨argRoot, r₂⟩, ea, e⟩ := map_eq_ok_iff.1 e
      cases e
      obtain ⟨es, wk, run⟩ := ih ef
      obtain ⟨es', wk', run'⟩ := ih ea
      refine ⟨_, wk.two wk' hg, fun built rest => ?_⟩
      rw [List.cons_append, List.cons_append, List.append_assoc, List.append_assoc,
        Resolver.run_enter hg (by simp), run, run', List.singleton_append, Resolver.run_leave hg]
      rfl

end Resolution

/-- Resolution by a walk gives what resolution gives. -/
lemma Graph.resolveByWalk_eq {g : Graph} {r : Resolved} (e : g.resolve = .ok r) :
    g.resolveByWalk = .ok (some r) := by
  obtain ⟨⟨root, r'⟩, ew, e⟩ := bind_eq_ok_iff.1 e
  cases e
  obtain ⟨es, wk, run⟩ := Resolution.exists_walks ew
  have ee : Resolver.run g.heap es.toArray.toList .start = some ⟨[], r', [root]⟩ := by
    rw [← List.append_nil es.toArray.toList]
    exact run [] []
  simp only [Graph.resolveByWalk, wk.visits_eq, Bind.bind, Except.bind, ee]
  rfl

end WeakHead

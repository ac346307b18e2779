import WeakHead.Heap.Walk
import WeakHead.Proofs.Heap.Tree

/-!
# Walks over a term

A walk from a slot that stands for a term comes to an end if it may go down as far as the term is
high, and what it finds is told by the term alone. No term is higher than the heap is large, so all
walks come to an end.
-/

namespace WeakHead

/-- The term in bracketed form: every abstraction and application has parentheses. -/
def IndexTerm.bracketed : IndexTerm → String
  | idx index => toString index
  | lam body => "(λ " ++ body.bracketed ++ ")"
  | app fn arg => "(" ++ fn.bracketed ++ " " ++ arg.bracketed ++ ")"

namespace Heap

variable {h : Heap} {slot : Slot} {t : IndexTerm} {depth : Nat}

/-! ### Sizes -/

section

variable {node : Node} {body fn arg : Slot} {n m : Nat}

lemma sizeWithin_leaf (hg : h.get slot = .ok node) (hp : node.parts = []) (depth) :
    h.sizeWithin (depth + 1) slot = .ok 1 := by
  rw [sizeWithin, hg]
  cases node <;> first | rfl | cases hp

lemma sizeWithin_one (hg : h.get slot = .ok node) (hp : node.parts = [body])
    (e : h.sizeWithin depth body = .ok n) : h.sizeWithin (depth + 1) slot = .ok (n + 1) := by
  have es : h.sizeWithin (depth + 1) slot = (h.sizeWithin depth body).map (· + 1) := by
    rw [sizeWithin, hg]
    cases node <;> cases hp <;> rfl
  rw [es, e]
  rfl

lemma sizeWithin_two (hg : h.get slot = .ok (.app fn arg)) (e : h.sizeWithin depth fn = .ok n)
    (e' : h.sizeWithin depth arg = .ok m) : h.sizeWithin (depth + 1) slot = .ok (n + m + 1) := by
  have es : h.sizeWithin (depth + 1) slot = (h.sizeWithin depth fn).bind fun left =>
      (h.sizeWithin depth arg).map (left + · + 1) := by
    rw [sizeWithin, hg]
    rfl
  rw [es, e, bind_ok, e']
  rfl

end

/-- The walk counts the nodes of the term. -/
lemma Unfolds.sizeWithin_ok (un : h.Unfolds slot t) (hd : t.height ≤ depth) :
    h.sizeWithin depth slot = .ok t.size := by
  induction t generalizing slot depth with
  | idx index =>
    obtain ⟨depth, rfl⟩ := IndexTerm.depth_eq_succ hd
    cases un with
    | idx hg => exact sizeWithin_leaf hg rfl depth
  | lam body ih =>
    obtain ⟨depth, rfl⟩ := IndexTerm.depth_eq_succ hd
    cases un with
    | lam hg unb => exact sizeWithin_one hg rfl (ih unb (Nat.le_of_succ_le_succ hd))
  | app fn arg ihf iha =>
    obtain ⟨depth, rfl⟩ := IndexTerm.depth_eq_succ hd
    have hd := Nat.le_of_succ_le_succ hd
    cases un with
    | app hg unf una =>
      exact sizeWithin_two hg (ihf unf (le_of_max_le_left hd)) (iha una (le_of_max_le_right hd))

/-! ### Bracketed form -/

/-- The walk writes the bracketed form of the term. -/
lemma Unfolds.bracketedWithin_ok (un : h.Unfolds slot t) (hd : t.height ≤ depth) (out : String) :
    h.bracketedWithin depth slot out = .ok (out ++ t.bracketed) := by
  induction t generalizing slot depth out with
  | idx index =>
    obtain ⟨depth, rfl⟩ := IndexTerm.depth_eq_succ hd
    cases un with
    | idx hg =>
      rw [bracketedWithin, hg]
      rfl
  | lam body ih =>
    obtain ⟨depth, rfl⟩ := IndexTerm.depth_eq_succ hd
    cases un with
    | @lam _ bodySlot _ hg unb =>
      have e := ih unb (Nat.le_of_succ_le_succ hd) (out ++ "(λ ")
      rw [bracketedWithin, hg]
      show (h.bracketedWithin depth bodySlot (out ++ "(λ ") >>= _) = _
      rw [e]
      show Except.ok (out ++ "(λ " ++ body.bracketed ++ ")") = _
      simp only [IndexTerm.bracketed, String.append_assoc]
  | app fn arg ihf iha =>
    obtain ⟨depth, rfl⟩ := IndexTerm.depth_eq_succ hd
    have hd := Nat.le_of_succ_le_succ hd
    cases un with
    | @app _ fnSlot argSlot _ _ hg unf una =>
      have ef := ihf unf (le_of_max_le_left hd) (out ++ "(")
      have ea := iha una (le_of_max_le_right hd) (out ++ "(" ++ fn.bracketed ++ " ")
      rw [bracketedWithin, hg]
      show (h.bracketedWithin depth fnSlot (out ++ "(") >>= _) = _
      rw [ef]
      show (h.bracketedWithin depth argSlot (out ++ "(" ++ fn.bracketed ++ " ") >>= _) = _
      rw [ea]
      show Except.ok (out ++ "(" ++ fn.bracketed ++ " " ++ arg.bracketed ++ ")") = _
      simp only [IndexTerm.bracketed, String.append_assoc]

/-! ### Events -/

/-- The events of a walk that enters and leaves each of the slots `S` once, and no other. -/
structure Tours (events : List Visit) (S : Finset Slot) : Prop where
  nodup : events.Nodup
  enter_iff : ∀ x, .enter x ∈ events ↔ x ∈ S
  leave_iff : ∀ x, .leave x ∈ events ↔ x ∈ S

lemma tours_nil : Tours [] ∅ :=
  ⟨List.nodup_nil, fun x => by simp, fun x => by simp⟩

/-- A walk through slots and then through others. -/
lemma Tours.append {es es' : List Visit} {S R : Finset Slot} (tour : Tours es S)
    (tour' : Tours es' R) (dis : Disjoint S R) : Tours (es ++ es') (S ∪ R) := by
  rw [Finset.disjoint_left] at dis
  refine ⟨List.nodup_append'.2 ⟨tour.nodup, tour'.nodup, ?_⟩, fun x => ?_, fun x => ?_⟩
  · intro event hm hm'
    cases event with
    | enter x => exact dis ((tour.enter_iff x).1 hm) ((tour'.enter_iff x).1 hm')
    | leave x => exact dis ((tour.leave_iff x).1 hm) ((tour'.leave_iff x).1 hm')
  · rw [List.mem_append, Finset.mem_union, tour.enter_iff, tour'.enter_iff]
  · rw [List.mem_append, Finset.mem_union, tour.leave_iff, tour'.leave_iff]

/-- A walk through slots between the entering and the leaving of one more. -/
lemma Tours.around {es : List Visit} {S : Finset Slot} {slot} (tour : Tours es S) (hn : slot ∉ S) :
    Tours (.enter slot :: es ++ [.leave slot]) (insert slot S) := by
  refine ⟨?_, fun x => ?_, fun x => ?_⟩
  · rw [List.cons_append, List.nodup_cons, List.nodup_append']
    refine ⟨?_, tour.nodup, List.nodup_singleton _, ?_⟩
    · simpa [tour.enter_iff] using hn
    · simpa [tour.leave_iff] using hn
  · simp [tour.enter_iff]
  · simp [tour.leave_iff, or_comm]

/-- The walk from the slot, at most `depth` deep, adds these events. -/
def Walks (h : Heap) (depth : Nat) (slot : Slot) (es : List Visit) : Prop :=
  ∀ events : Array Visit, h.visitsWithin depth slot events = .ok (events ++ es.toArray)

section

variable {node : Node} {body fn arg : Slot} {es es' : List Visit}

lemma walks_leaf (hg : h.get slot = .ok node) (hp : node.parts = []) (depth) :
    h.Walks (depth + 1) slot [.enter slot, .leave slot] := by
  intro events
  have ev : h.visitsWithin (depth + 1) slot events =
      .ok ((events.push (.enter slot)).push (.leave slot)) := by
    rw [visitsWithin, hg]
    cases node <;> first | rfl | cases hp
  rw [ev]
  simp only [← Array.append_singleton, Array.append_assoc]
  rfl

/-- A node with one part is entered before it and left after it. -/
lemma Walks.one (wk : h.Walks depth body es) (hg : h.get slot = .ok node)
    (hp : node.parts = [body]) : h.Walks (depth + 1) slot (.enter slot :: es ++ [.leave slot]) := by
  intro events
  have ev : h.visitsWithin (depth + 1) slot events =
      (h.visitsWithin depth body (events.push (.enter slot))).map (·.push (.leave slot)) := by
    rw [visitsWithin, hg]
    cases node <;> cases hp <;> rfl
  rw [ev, wk]
  simp [Except.map]

/-- An application is entered before its parts and left after them. -/
lemma Walks.two (wk : h.Walks depth fn es) (wk' : h.Walks depth arg es')
    (hg : h.get slot = .ok (.app fn arg)) :
    h.Walks (depth + 1) slot (.enter slot :: (es ++ es') ++ [.leave slot]) := by
  intro events
  have ev : h.visitsWithin (depth + 1) slot events =
      (h.visitsWithin depth fn (events.push (.enter slot))).bind fun events =>
        (h.visitsWithin depth arg events).map (·.push (.leave slot)) := by
    rw [visitsWithin, hg]
    rfl
  rw [ev, wk, Except.bind, wk']
  simp [Except.map]

/-- The walk with the depth of the heap gives its events. -/
lemma Walks.visits_eq (wk : h.Walks h.depthBound slot es) : h.visits slot = .ok es.toArray := by
  have e := wk #[]
  rwa [Array.empty_append] at e

end

/-- On a tree the walk enters and leaves each slot once. -/
lemma TreeAt.exists_walks {S} (tr : h.TreeAt slot t S) (hd : t.height ≤ depth) :
    ∃ es, h.Walks depth slot es ∧ Tours es S := by
  induction t generalizing slot S depth with
  | idx index =>
    obtain ⟨depth, rfl⟩ := IndexTerm.depth_eq_succ hd
    cases tr with
    | idx hg => exact ⟨_, walks_leaf hg rfl depth, tours_nil.around (Finset.notMem_empty slot)⟩
  | lam body ih =>
    obtain ⟨depth, rfl⟩ := IndexTerm.depth_eq_succ hd
    cases tr with
    | lam hg trb hn =>
      obtain ⟨es, wk, tour⟩ := ih trb (Nat.le_of_succ_le_succ hd)
      exact ⟨_, wk.one hg rfl, tour.around hn⟩
  | app fn arg ihf iha =>
    obtain ⟨depth, rfl⟩ := IndexTerm.depth_eq_succ hd
    have hd := Nat.le_of_succ_le_succ hd
    cases tr with
    | app hg trf tra hf ha dis =>
      obtain ⟨es, wk, tour⟩ := ihf trf (le_of_max_le_left hd)
      obtain ⟨es', wk', tour'⟩ := iha tra (le_of_max_le_right hd)
      -- The parts are apart, and the root is in neither of them.
      have hn := fun hm => (Finset.mem_union.1 hm).elim hf ha
      exact ⟨_, wk.two wk' hg, (tour.append tour' dis).around hn⟩

/-! ### Walks to the end -/

lemma Unfolds.sizeFrom_ok (un : h.Unfolds slot t) : h.sizeFrom slot = .ok t.size :=
  un.sizeWithin_ok un.height_le

lemma Unfolds.bracketed_ok (un : h.Unfolds slot t) : h.bracketed slot = .ok t.bracketed := by
  have e := un.bracketedWithin_ok un.height_le ""
  rwa [String.empty_append] at e

lemma TreeAt.sizeFrom_ok {S} (tr : h.TreeAt slot t S) : h.sizeFrom slot = .ok t.size :=
  tr.unfolds.sizeFrom_ok

/-- A tree is written as its term. -/
lemma TreeAt.bracketed_ok {S} (tr : h.TreeAt slot t S) : h.bracketed slot = .ok t.bracketed :=
  tr.unfolds.bracketed_ok

/-- A tree is walked, each of its slots once. -/
lemma TreeAt.visits_ok {S} (tr : h.TreeAt slot t S) :
    ∃ es : List Visit, h.visits slot = .ok es.toArray ∧ Tours es S := by
  obtain ⟨es, wk, tour⟩ := tr.exists_walks tr.height_le
  exact ⟨es, wk.visits_eq, tour⟩

end Heap

end WeakHead

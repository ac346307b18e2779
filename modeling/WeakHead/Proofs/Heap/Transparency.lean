import WeakHead.Proofs.Heap.Alike.Compaction
import WeakHead.Proofs.Heap.Correspondence
import WeakHead.Proofs.Heap.Stepping

/-!
# Compaction is not noticed

A graph and its compaction look alike, and steps do the same to graphs that look alike. So a
reduction can be interrupted by compactions at any point: it ends as it would have without them,
after as many steps, and the same text is written. Nothing is asked of the nodes that the root does
not reach, and those that it reaches may be shared.

Main statement: `compact_transparent`.
-/

namespace WeakHead

/-- The graphs look alike by some relation of their slots. -/
def Graph.Alike (g g' : Graph) : Prop :=
  ∃ R, AlikeBy R g g'

/-- The graphs look alike by a relation that extends `R`. -/
def Graph.AlikeAfter (R : Slot → Slot → Prop) (g g' : Graph) : Prop :=
  ∃ R', (∀ x y, R x y → R' x y) ∧ AlikeBy R' g g'

/-- The slots are at the end of the same path after some steps. -/
def Graph.MeetAlong (g g' : Graph) (x y : Slot) : Prop :=
  ∃ n g₁ g₁', g.acts (.replicate n .step) = .ok g₁ ∧ g'.acts (.replicate n .step) = .ok g₁' ∧
    SamePath g₁ g₁' x y

/-- Two runs of as many steps, to graphs that look alike. -/
structure Run.Alike (root root' : Slot) (r r' : Run) : Prop where
  steps_eq : r'.steps = r.steps
  graph : Graph.Alike ⟨r.heap, root⟩ ⟨r'.heap, root'⟩

variable {R R' : Slot → Slot → Prop} {g g' : Graph}

lemma Graph.AlikeAfter.alike (al : AlikeAfter R g g') : Alike g g' := by
  obtain ⟨R', -, al⟩ := al
  exact ⟨R', al⟩

/-! ### Single steps -/

namespace Graph.AlikeBy

/-- A graph looks like itself, at slots that stand for terms. -/
lemma refl {t} (un : g.heap.Unfolds g.root t) :
    AlikeBy (fun x y => x = y ∧ ∃ u, g.heap.Unfolds x u) g g :=
  ⟨⟨t, un⟩, Heap.alike_self g.heap, rfl, t, un⟩

/-- A step finds related slots in graphs that look alike, or none in both, and leaves them so. -/
lemma step (al : AlikeBy R g g') :
    Agree (fun s s' => Option.Rel R s.2 s'.2 ∧ AlikeAfter R ⟨s.1, g.root⟩ ⟨s'.1, g'.root⟩)
      (g.heap.step g.root) (g'.heap.step g'.root) := by
  obtain ⟨t, un⟩ := al.exists_unfolds
  exact (al.heaps.step al.roots un).imp fun _ _ ⟨rel, R', sub, al', survives⟩ =>
    ⟨rel, R', sub, survives un, al', sub _ _ al.roots⟩

lemma acts (al : AlikeBy R g g') (n) :
    Agree (AlikeAfter R) (g.acts (.replicate n .step)) (g'.acts (.replicate n .step)) := by
  induction n generalizing R g g' with
  | zero => exact .ok ⟨R, fun x y => id, al⟩
  | succ n ih =>
    have ag : Agree (AlikeAfter R) (g.act .step) (g'.act .step) := al.step.map fun _ _ => And.right
    refine ag.bind fun g₁ g₁' ⟨R₁, sub, al₁⟩ => ?_
    exact (ih al₁).imp fun _ _ ⟨R₂, sub', al₂⟩ => ⟨R₂, fun x y r => sub' x y (sub x y r), al₂⟩

lemma exists_compact (al : AlikeBy R g g') : ∃ c, g'.compact = .ok c ∧ g.Alike c.graph := by
  obtain ⟨t, un⟩ := al.exists_unfolds
  have un' := al.heaps.unfolds un al.roots
  obtain ⟨c, R', e, al', r⟩ := un'.endsWithin.compact_alike un'.height_le
  exact ⟨c, e, _, ⟨t, un⟩, al.heaps.trans al', g'.root, al.roots, r⟩

lemma headRedex (al : AlikeBy R g g') :
    ∃ found found', g.heap.headRedex g.root = .ok found ∧
      g'.heap.headRedex g'.root = .ok found' ∧ Option.Rel (Redex.Alike R) found found' := by
  obtain ⟨t, un⟩ := al.exists_unfolds
  obtain ⟨found, found', e, e', rel, -⟩ := al.heaps.headRedex al.roots un
  exact ⟨found, found', e, e', rel⟩

/-! ### One renaming for all steps -/

/-- A slot keeps its companion in later steps. -/
lemma eq_of_samePath (al : AlikeBy R g g') {n k} (le : n ≤ k) {g₁ g₁' g₂ g₂' : Graph}
    (e₁ : g.acts (.replicate n .step) = .ok g₁) (e₁' : g'.acts (.replicate n .step) = .ok g₁')
    (e₂ : g.acts (.replicate k .step) = .ok g₂) (e₂' : g'.acts (.replicate k .step) = .ok g₂')
    {x y y'} (sp : SamePath g₁ g₁' x y) (sp' : SamePath g₂ g₂' x y') : y = y' := by
  obtain ⟨k, rfl⟩ := Nat.exists_eq_add_of_le le
  rw [List.replicate_add, acts_append, e₁] at e₂
  rw [List.replicate_add, acts_append, e₁'] at e₂'
  have ag := al.acts n
  rw [e₁, e₁'] at ag
  obtain ⟨R₁, -, al₁⟩ := ag.of_ok
  -- The relation of the earlier graphs is part of that of the later ones, and so are both pairs.
  have ag := al₁.acts k
  rw [show g₁.acts _ = _ from e₂, show g₁'.acts _ = _ from e₂'] at ag
  obtain ⟨R₂, sub, al₂⟩ := ag.of_ok
  exact al₂.heaps.right_unique (sub _ _ (al₁.of_samePath sp)) (al₂.of_samePath sp')

/-- One renaming takes the one run to the other, at all steps. -/
lemma exists_correspondsBy (al : AlikeBy R g g') :
    ∃ ρ, ∀ n,
      Agree (CorrespondsBy ρ) (g.acts (.replicate n .step)) (g'.acts (.replicate n .step)) := by
  have unique : ∀ x y y', MeetAlong g g' x y → MeetAlong g g' x y' → y = y' := by
    rintro x y y' ⟨n, g₁, g₁', e₁, e₁', sp⟩ ⟨k, g₂, g₂', e₂, e₂', sp'⟩
    cases Nat.le_total n k with
    | inl le => exact al.eq_of_samePath le e₁ e₁' e₂ e₂' sp sp'
    | inr le => exact (al.eq_of_samePath le e₂ e₂' e₁ e₁' sp' sp).symm
  obtain ⟨ρ, eq⟩ := exists_renaming unique
  refine ⟨ρ, fun n => (al.acts n).with_eq.imp fun g₁ g₁' ⟨e, e', R', _, al₁⟩ => ?_⟩
  exact al₁.samePath.correspondsBy fun x y sp => eq x y ⟨n, g₁, g₁', e, e', sp⟩

end Graph.AlikeBy

/-! ### Runs -/

namespace Run.Alike

variable {root root' : Slot} {r r' : Run}

lemma step (al : Alike root root' r r') :
    Agree (Alike root root') (r.step root) (r'.step root') := by
  obtain ⟨es, R, al⟩ := al
  refine al.step.map fun ⟨heap, slot⟩ ⟨heap', slot'⟩ ⟨rel, al'⟩ => ?_
  cases rel with
  | none => exact ⟨es, al'.alike⟩
  | some _ => exact ⟨by simpa [steps] using es, al'.alike⟩

lemma stepTimes (al : Alike root root' r r') (n) :
    Agree (Alike root root') (stepTimes root n r) (stepTimes root' n r') := by
  induction n generalizing r r' with
  | zero => exact .ok al
  | succ n ih => exact al.step.bind fun _ _ al' => ih al'

/-- With one budget both runs have the same outcome. -/
lemma continueWithin (al : Alike root root' r r') (budget) :
    Agree (fun s s' => s'.2 = s.2 ∧ Alike root root' s.1 s'.1) (continueWithin root budget r)
      (continueWithin root' budget r') := by
  rw [continueWithin_eq, continueWithin_eq]
  refine (al.stepTimes budget).bind fun r₁ r₁' al₁ => ?_
  obtain ⟨R, alR⟩ := al₁.graph
  obtain ⟨found, found', e, e', rel⟩ := alR.headRedex
  rw [e, e']
  cases rel with
  | none => exact .ok ⟨congrArg Outcome.reached al₁.steps_eq, al₁⟩
  | some _ => exact .ok ⟨congrArg Outcome.exhausted al₁.steps_eq, al₁⟩

lemma continueToEnd (al : Alike root root' r r') (fuel) :
    Agree (Option.Rel (Alike root root')) (continueToEnd root fuel r)
      (continueToEnd root' fuel r') := by
  induction fuel generalizing r r' with
  | zero => exact .ok .none
  | succ fuel ih =>
    obtain ⟨R, alR⟩ := al.graph
    obtain ⟨found, found', e, e', rel⟩ := alR.headRedex
    cases rel with
    | none =>
      rw [continueToEnd_of_none e, continueToEnd_of_none e']
      exact .ok (.some al)
    | some _ =>
      rw [continueToEnd_succ (by rw [e]; nofun), continueToEnd_succ (by rw [e']; nofun)]
      exact al.step.bind fun _ _ al' => ih al'

end Run.Alike

/-! ### Reductions -/

namespace Graph

/-- A reduction in rounds, each with a budget of its own, and a compaction after each. -/
def reduceInRounds : (budgets : List Nat) → Graph → Except Fault (Graph × Outcome)
  | [], g => (g.heap.whnfWithin g.root 0).map fun (r, o) => (⟨r.heap, g.root⟩, o)
  | budget :: budgets, g =>
    (g.heap.whnfWithin g.root budget).bind fun (r, o) =>
      (compact ⟨r.heap, g.root⟩).bind fun c =>
        (reduceInRounds budgets c.graph).map fun (g', o') => (g', o'.after o.steps)

lemma Alike.start (al : g.Alike g') : Run.Alike g.root g'.root (.start g.heap) (.start g'.heap) :=
  ⟨rfl, al⟩

lemma Alike.corresponds (al : g.Alike g') : g.Corresponds g' := by
  obtain ⟨R, al⟩ := al
  exact al.corresponds

/-- Reductions have the same outcome. -/
lemma Alike.reduce (al : g.Alike g') (fuel budget) :
    Agree (Option.Rel fun s s' => s'.2 = s.2 ∧ Run.Alike g.root g'.root s.1 s'.1)
      (g.heap.reduce fuel g.root budget) (g'.heap.reduce fuel g'.root budget) := by
  cases budget with
  | some budget =>
    rw [Heap.reduce_some, Heap.reduce_some]
    exact (al.start.continueWithin budget).map fun _ _ after => .some after
  | none =>
    rw [Heap.reduce_none, Heap.reduce_none]
    refine (al.start.continueToEnd fuel).map fun found found' rel => ?_
    cases rel with
    | none => exact .none
    | some al' => exact .some ⟨congrArg Outcome.reached al'.steps_eq, al'⟩

/-- A reduction in rounds has the outcome of one with all of their budgets. -/
lemma Alike.rounds (al : g.Alike g') (budgets) :
    Agree (fun s s' => s'.2 = s.2 ∧ Graph.Alike ⟨s.1.heap, g.root⟩ s'.1)
      (g.heap.whnfWithin g.root budgets.sum) (g'.reduceInRounds budgets) := by
  induction budgets generalizing g g' with
  | nil =>
    exact (al.start.continueWithin 0).map_right fun _ _ ⟨eo, al'⟩ => ⟨eo, al'.graph⟩
  | cons budget budgets ih =>
    rw [List.sum_cons, Heap.whnfWithin, ← Run.continueWithin_split]
    refine (al.start.continueWithin budget).bind fun ⟨r, o⟩ ⟨r', o'⟩ ⟨eo, al₁⟩ => ?_
    obtain ⟨R, alR⟩ := al₁.graph
    obtain ⟨c, ec, al₂⟩ := alR.exists_compact
    cases eo
    show Agree _ _ ((compact ⟨r'.heap, g'.root⟩).bind _)
    rw [ec]
    exact (ih al₂).map fun _ _ ⟨eo, al₃⟩ => ⟨congrArg (Outcome.after o.steps) eo, al₃⟩

/-- Compaction cannot be noticed in a reduction, whatever the live nodes share and whatever else is
in the heap. One renaming takes the graph to its compaction before and after every step: the same is
found, contracted, counted and written, or the same is wrong with both. A reduction, with a budget
or without, has the same outcome after as many steps, and so has one that compactions interrupt. -/
theorem compact_transparent {g : Graph} (hs : g.root < g.heap.size)
    (indexed : ∀ x ∈ g.live, g.heap.HoldsIndices x)
    (acyclic : ∀ x ∈ g.live, ∀ path, g.heap.follow x path = some x → path = []) :
    ∃ c, g.compact = .ok c ∧
      (∃ ρ, ∀ n, Agree (CorrespondsBy ρ) (g.acts (.replicate n .step))
        (c.graph.acts (.replicate n .step))) ∧
      (∀ fuel budget,
        Agree (Option.Rel fun s s' => s'.2 = s.2 ∧
            Corresponds ⟨s.1.heap, g.root⟩ ⟨s'.1.heap, c.graph.root⟩)
          (g.heap.reduce fuel g.root budget) (c.graph.heap.reduce fuel c.graph.root budget)) ∧
      ∀ budgets,
        Agree (fun s s' => s'.2 = s.2 ∧ Corresponds ⟨s.1.heap, g.root⟩ s'.1)
          (g.heap.whnfWithin g.root budgets.sum) (g.reduceInRounds budgets) := by
  obtain ⟨t, un⟩ := Heap.exists_unfolds_iff.2 ⟨hs, indexed, acyclic⟩
  have self : g.Alike g := ⟨_, .refl un⟩
  obtain ⟨c, ec, R, al⟩ := (AlikeBy.refl un).exists_compact
  refine ⟨c, ec, al.exists_correspondsBy, fun fuel budget => ?_, fun budgets =>
    (self.rounds budgets).imp fun _ _ ⟨eo, al'⟩ => ⟨eo, al'.corresponds⟩⟩
  refine (Alike.reduce ⟨R, al⟩ fuel budget).imp fun found found' rel => ?_
  cases rel with
  | none => exact .none
  | some after => exact .some ⟨after.1, after.2.graph.corresponds⟩

/-- A term that reduces to itself for ever, with all its parts shared. One node that the root does
not reach is part of itself, and has a part that is not there. -/
theorem compact_transparent_shared :
    let g : Graph := ⟨⟨#[.app 0 9, .idx 0, .app 1 1, .lam 2, .app 3 3]⟩, 4⟩
    ∃ c r s, g.compact = .ok c ∧ c.live = 4 ∧ g.heap.whnfWithin g.root 3 = .ok r ∧
      g.reduceInRounds [1, 2] = .ok s ∧ r.2 = .exhausted 3 ∧ s.2 = .exhausted 3 ∧
      Corresponds ⟨r.1.heap, g.root⟩ s.1 := by
  intro g
  have half : g.heap.Unfolds 3 (.lam (.app (.idx 0) (.idx 0))) :=
    .lam rfl (.app rfl (.idx rfl) (.idx rfl))
  have un : g.heap.Unfolds g.root _ := .app rfl half half
  obtain ⟨hs, indexed, acyclic⟩ := Heap.exists_unfolds_iff.1 ⟨_, un⟩
  obtain ⟨c, ec, -, -, rounds⟩ := compact_transparent hs indexed acyclic
  have live : g.compact.map Compacted.live = .ok 4 := by decide +kernel
  have once : (g.heap.whnfWithin g.root 3).map Prod.snd = .ok (.exhausted 3) := by decide +kernel
  have resumed : (g.reduceInRounds [1, 2]).map Prod.snd = .ok (.exhausted 3) := by decide +kernel
  obtain ⟨c', ec', el⟩ := map_eq_ok_iff.1 live
  obtain ⟨r, er, eo⟩ := map_eq_ok_iff.1 once
  obtain ⟨s, es, eo'⟩ := map_eq_ok_iff.1 resumed
  cases ec.symm.trans ec'
  have ag := rounds [1, 2]
  rw [show g.heap.whnfWithin g.root [1, 2].sum = _ from er, es] at ag
  exact ⟨c, r, s, ec, el, er, es, eo, eo', ag.of_ok.2⟩

end Graph

end WeakHead

import WeakHead.Proofs.Evaluation
import WeakHead.Session.Command

/-!
# Answers to sources that can be read

Nothing that is done to answer a command can go wrong once its source has been read: the graph that
came from it is a tree with all its free slots in the table, steps and compaction keep it one, and
on such a tree every walk comes to an end. The heap only has to stay below the bound for heaps.
-/

namespace WeakHead

/-! ### The tree with names -/

/-- The term in bracketed form. -/
def Term.bracketed : Term → String
  | var name => name
  | abs binder body => "(λ " ++ binder ++ " " ++ body.bracketed ++ ")"
  | app fn arg => "(" ++ fn.bracketed ++ " " ++ arg.bracketed ++ ")"

/-- A slot that stands for a named term is written as this term. -/
lemma Heap.UnfoldsNamed.bracketedWithin_ok {h : Heap} {slot t} (un : h.UnfoldsNamed slot t) {depth}
    (hd : t.height ≤ depth) (out : String) :
    h.bracketedWithin depth slot out = .ok (out ++ t.bracketed) := by
  induction t generalizing slot depth out with
  | var name =>
    obtain ⟨depth, rfl⟩ := Term.depth_eq_succ hd
    cases un with
    | var hg =>
      rw [bracketedWithin, hg]
      rfl
  | abs binder body ih =>
    obtain ⟨depth, rfl⟩ := Term.depth_eq_succ hd
    cases un with
    | @abs _ bodySlot _ _ hg unb =>
      have e := ih unb (Nat.le_of_succ_le_succ hd) (out ++ "(λ " ++ binder ++ " ")
      rw [bracketedWithin, hg]
      show (h.bracketedWithin depth bodySlot (out ++ "(λ " ++ binder ++ " ") >>= _) = _
      rw [e]
      show Except.ok (out ++ "(λ " ++ binder ++ " " ++ body.bracketed ++ ")") = _
      simp only [Term.bracketed, String.append_assoc]
  | app fn arg ihf iha =>
    obtain ⟨depth, rfl⟩ := Term.depth_eq_succ hd
    have hd := Nat.le_of_succ_le_succ hd
    cases un with
    | @app _ fnSlot argSlot _ _ hg unf una =>
      have ef := ihf unf (le_of_max_le_left hd) (out ++ "(")
      have ea := iha una (le_of_max_le_right hd) (out ++ "(" ++ fn.bracketed ++ " ")
      rw [bracketedWithin, hg]
      show (h.bracketedWithin depth fnSlot (out ++ "(") >>= _) = _
      rw [ef]
      show (h.bracketedWithin depth argSlot (out ++ "(" ++ fn.bracketed ++ " ") >>= _) = _
      rw [ea]
      show Except.ok (out ++ "(" ++ fn.bracketed ++ " " ++ arg.bracketed ++ ")") = _
      simp only [Term.bracketed, String.append_assoc]

/-- A term that has been laid out is written as it is. -/
lemma Graph.bracketed_ofTerm (t : Term) : (Graph.ofTerm t).bracketed = .ok t.bracketed := by
  have e := (unfoldsNamed_ofTerm t).bracketedWithin_ok (height_le_ofTerm t) ""
  rwa [String.empty_append] at e

/-! ### Answers -/

/-- No heap is larger than heaps can be before one of the first `budget` steps of the source. -/
def FitsHeaps (source : String) (budget : Nat) : Prop :=
  ∀ r, Resolved.read source = .ok r → ∀ n < budget, ∀ run,
    Run.stepTimes r.graph.root n (.start r.graph.heap) = .ok run → run.heap.size < heapBound

/-- A source that is no term is not resolved, and its error is the reason. -/
lemma Resolved.read_of_unreadable {source e} (ep : Term.parse source = .error e) :
    Resolved.read source = .error (.unreadable e) := by
  have eg : Graph.read source = .error e := by rw [Graph.read, ep]
  rw [read, eg]
  rfl

/-- The heap before the first step has two nodes for each node of the term. -/
lemma fitsHeaps_one {source}
    (lt : (Term.parse source).toOption.all (fun t => 2 * t.size < heapBound) = true) :
    FitsHeaps source 1 := by
  intro r er n hn run en
  cases Nat.lt_one_iff.1 hn
  cases en
  cases ep : Term.parse source with
  | error e => cases er.symm.trans (Resolved.read_of_unreadable ep)
  | ok t =>
    obtain ⟨r', er', st⟩ := Resolved.read_ok ep
    cases er.symm.trans er'
    rw [ep] at lt
    show r.graph.heap.size < heapBound
    rw [st.size_eq]
    exact of_decide_eq_true lt

namespace Answer

variable {source : String} {t : Term} {settings : Settings} {fuel budget : Nat}

/-- `:parse` answers with the term. -/
lemma named_ok (e : Term.parse source = .ok t) : named source = .ok [.line t.bracketed] := by
  have er : Graph.read source = .ok (.ofTerm t) := by rw [Graph.read, e]
  rw [named, er]
  show (Failure.ofHeap (Graph.ofTerm t).bracketed >>= _) = _
  rw [Graph.bracketed_ofTerm]
  rfl

/-- `:resolve` answers on every term. -/
lemma exists_indexed (e : Term.parse source = .ok t) :
    ∃ outputs, indexed settings source = .ok outputs := by
  obtain ⟨r, er, st⟩ := Resolved.read_ok e
  obtain ⟨S, tr⟩ := st.tree
  rw [indexed, er]
  show ∃ outputs, (Failure.ofHeap r.graph.bracketed >>= _) = _
  rw [Graph.bracketed, tr.bracketed_ok]
  exact ⟨_, rfl⟩

/-- `:free` answers on every term. -/
lemma exists_freeTable (e : Term.parse source = .ok t) :
    ∃ outputs, freeTable settings source = .ok outputs := by
  obtain ⟨r, er, -⟩ := Resolved.read_ok e
  rw [freeTable, er]
  exact ⟨_, rfl⟩

/-- With a budget an evaluation comes to its end, and it leaves a tree. -/
lemma exists_evaluate (fuel) (e : Term.parse source = .ok t) (fits : FitsHeaps source budget) :
    ∃ result u, evaluate fuel source (some budget) = .ok result ∧ result.graph.IsTreeOf u := by
  obtain ⟨r, er, st⟩ := Resolved.read_ok e
  obtain ⟨run, en⟩ := st.exists_stepTimes (n := budget) (fits r er)
  obtain ⟨S, tr⟩ := Graph.IsTreeOf.stepTimes (r := .start r.graph.heap) st.tree en
  -- The heap is a tree after the last step too, so its spine can be searched.
  obtain ⟨found, ef⟩ := tr.headRedex_ok
  have ew : r.graph.heap.reduce fuel r.graph.root (some budget) =
      .ok (some (run, run.outcome found)) := by
    rw [Heap.reduce_some, Heap.whnfWithin, Run.continueWithin_eq, en]
    show ((run.heap.headRedex r.graph.root).map _).map some = _
    rw [ef]
    rfl
  rw [evaluate_of_read er, ew]
  exact ⟨_, _, rfl, S, tr⟩

/-- An evaluation with a budget answers, if its heaps fit. -/
lemma exists_result (limit : settings.stepLimit = some budget) (e : Term.parse source = .ok t)
    (fits : FitsHeaps source budget) : ∃ outputs, result fuel settings source = .ok outputs := by
  obtain ⟨ev, u, ee, S, tr⟩ := exists_evaluate fuel e fits
  rw [result, limit, ee]
  show ∃ outputs, (Failure.ofHeap ev.bracketed >>= _) = _
  rw [Evaluation.bracketed, Graph.bracketed, tr.bracketed_ok]
  show ∃ outputs, (Failure.ofHeap ev.readback >>= _) = _
  rw [Evaluation.readback, tr.readback_ok]
  exact ⟨_, rfl⟩

/-- A compaction after an evaluation answers, if its heaps fit. -/
lemma exists_compacted (limit : settings.stepLimit = some budget) (e : Term.parse source = .ok t)
    (fits : FitsHeaps source budget) : ∃ outputs, compacted fuel settings source = .ok outputs := by
  obtain ⟨ev, u, ee, S, tr⟩ := exists_evaluate fuel e fits
  obtain ⟨c, ec, -, -, tr', -⟩ := tr.compact_ok
  rw [compacted, limit, ee]
  show ∃ outputs, (Failure.ofHeap ev.graph.compact >>= _) = _
  rw [ec]
  show ∃ outputs, (Failure.ofHeap c.graph.bracketed >>= _) = _
  rw [Graph.bracketed, tr'.bracketed_ok]
  exact ⟨_, rfl⟩

/-- A single step answers, if the first heap fits. -/
lemma exists_oneStep (pos : 0 < budget) (e : Term.parse source = .ok t)
    (fits : FitsHeaps source budget) : ∃ outputs, oneStep settings source = .ok outputs := by
  obtain ⟨r, er, st⟩ := Resolved.read_ok e
  -- Of the heaps before the steps only the first counts here.
  have hs : r.graph.heap.size < heapBound := fits r er 0 pos (.start r.graph.heap) rfl
  obtain ⟨g, ea⟩ := Graph.IsTreeOf.exists_act st.tree st.covered
    (size_add_size_le hs (st.size_free_le.trans (Nat.le_of_lt hs))) .step
  obtain ⟨S, tr⟩ := Graph.IsTreeOf.act st.tree ea
  obtain ⟨⟨heap, contracted⟩, es, rfl⟩ := map_eq_ok_iff.1 ea
  rw [oneStep, er]
  show ∃ outputs, (Failure.ofHeap (r.graph.heap.step r.graph.root) >>= _) = _
  rw [es]
  cases contracted with
  | none => exact ⟨_, rfl⟩
  | some slot =>
    show ∃ outputs, (Failure.ofHeap (Graph.bracketed ⟨heap, r.graph.root⟩) >>= _) = _
    rw [Graph.bracketed, tr.bracketed_ok]
    show ∃ outputs, (Failure.ofHeap (Graph.readback ⟨heap, r.graph.root⟩ r.free) >>= _) = _
    rw [tr.readback_ok]
    exact ⟨_, rfl⟩

end Answer

namespace Command

/-- The commands that are about the term of a source. -/
def ReadsTerm (c : Command) : Prop :=
  c ∈ [parse, resolve, free, step, evaluate, compact]

/-- Whether a command is one of them can be decided. -/
instance (c : Command) : Decidable c.ReadsTerm :=
  inferInstanceAs (Decidable (_ ∈ _))

variable {source : String} {settings : Settings} {fuel budget : Nat} {c : Command}

/-- Every command answers on a term, if there is a budget and the heaps fit. -/
lemma exists_answer (limit : settings.stepLimit = some budget) (pos : 0 < budget) {t}
    (e : Term.parse source = .ok t) (fits : FitsHeaps source budget) :
    ∃ outputs, c.answer fuel settings source = .ok outputs := by
  cases c with
  | tokenize => exact ⟨_, rfl⟩
  | parse => exact ⟨_, Answer.named_ok e⟩
  | resolve => exact Answer.exists_indexed e
  | free => exact Answer.exists_freeTable e
  | step => exact Answer.exists_oneStep pos e fits
  | evaluate => exact Answer.exists_result limit e fits
  | compact => exact Answer.exists_compacted limit e fits
  | help => exact ⟨_, rfl⟩
  | unknown word => exact ⟨_, rfl⟩

/-- The other commands answer on anything. -/
lemma exists_answer_of_not_readsTerm (hn : ¬ c.ReadsTerm) :
    ∃ outputs, c.answer fuel settings source = .ok outputs := by
  cases c with
  | tokenize => exact ⟨_, rfl⟩
  | help => exact ⟨_, rfl⟩
  | unknown word => exact ⟨_, rfl⟩
  | _ => exact absurd (by simp [ReadsTerm]) hn

/-- What makes a source unreadable is all that commands say about it. -/
lemma answer_of_unreadable (hr : c.ReadsTerm) {e} (ee : Term.parse source = .error e) :
    c.answer fuel settings source = .error (.unreadable e) := by
  have eg : Graph.read source = .error e := by rw [Graph.read, ee]
  have er := Resolved.read_of_unreadable ee
  cases c with
  | parse =>
    rw [answer, Answer.named, eg]
    rfl
  | resolve =>
    rw [answer, Answer.indexed, er]
    rfl
  | free =>
    rw [answer, Answer.freeTable, er]
    rfl
  | step =>
    rw [answer, Answer.oneStep, er]
    rfl
  | evaluate =>
    rw [answer, Answer.result, WeakHead.evaluate, er]
    rfl
  | compact =>
    rw [answer, Answer.compacted, WeakHead.evaluate, er]
    rfl
  | _ => simp [ReadsTerm] at hr

end Command

end WeakHead

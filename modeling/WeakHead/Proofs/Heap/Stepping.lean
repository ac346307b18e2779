import WeakHead.Proofs.Heap.Scope
import WeakHead.Reduction

/-!
# Single steps of a reduction

A reduction with a budget and one without are loops over single steps, with an end to them of their
own. Here both are opened once: each is as many single steps as it takes, and then a look for a
redex. What a run does hangs on its heap alone, so runs one after the other are one run.

Main statements: `continueWithin_eq`, `continueToEnd_eq_some_iff`, `continueWithin_split`.
-/

namespace WeakHead

/-- A step contracts nothing exactly if there is no redex, and then it changes nothing. -/
lemma Heap.step_eq_none_iff {h h' : Heap} {root} :
    h.step root = .ok (h', none) ↔ h.headRedex root = .ok none ∧ h' = h := by
  rw [Heap.step_eq, bind_eq_ok_iff]
  constructor
  · rintro ⟨found, er, e⟩
    cases found with
    | none =>
      cases e
      exact ⟨er, rfl⟩
    | some redex =>
      obtain ⟨h₁, -, e⟩ := map_eq_ok_iff.1 e
      cases e
  · rintro ⟨er, rfl⟩
    exact ⟨none, er, rfl⟩

/-- The outcome of a run that comes after `count` other steps. -/
def Outcome.after (count : Nat) : Outcome → Outcome
  | reached steps => reached (count + steps)
  | exhausted steps => exhausted (count + steps)

namespace Run

/-- The run after one more step, which adds the slot that was contracted if there was a redex. -/
def step (root : Slot) (r : Run) : Except Fault Run :=
  (r.heap.step root).map fun
    | (heap, none) => ⟨heap, r.contracted⟩
    | (heap, some slot) => ⟨heap, r.contracted.push slot⟩

/-- The run after `n` more steps, whether there is a redex for them or not. -/
def stepTimes (root : Slot) : (n : Nat) → Run → Except Fault Run
  | 0, r => .ok r
  | n + 1, r => (r.step root).bind (stepTimes root n)

/-- How a run has ended, by what is found on the spine behind it. -/
def outcome (r : Run) : Option Redex → Outcome
  | none => .reached r.steps
  | some _ => .exhausted r.steps

/-- A run and a run of its heap, one after the other. -/
def followedBy (r r' : Run) : Run :=
  ⟨r'.heap, r.contracted ++ r'.contracted⟩

variable {root : Slot} {r r' : Run}

/-! ### Single steps -/

lemma step_of_none (e : r.heap.headRedex root = .ok none) : r.step root = .ok r := by
  rw [step, Heap.step_eq_none_iff.2 ⟨e, rfl⟩]
  rfl

lemma step_of_error {fault} (e : r.heap.headRedex root = .error fault) :
    r.step root = .error fault := by
  rw [step, Heap.step_eq, e]
  rfl

/-- Where there is a redex, what is done after a step is done after a single step of the run. -/
lemma bind_step_of_ne_none {α : Type} (hn : r.heap.headRedex root ≠ .ok none)
    (last : Heap → Except Fault α) (next : Run → Except Fault α) :
    ((r.heap.step root).bind fun
      | (heap, none) => last heap
      | (heap, some slot) => next ⟨heap, r.contracted.push slot⟩) = (r.step root).bind next := by
  rw [step]
  cases es : r.heap.step root with
  | error fault => rfl
  | ok found =>
    obtain ⟨heap, found⟩ := found
    cases found with
    | none => exact absurd (Heap.step_eq_none_iff.1 es).1 hn
    | some slot => rfl

lemma stepTimes_of_none (e : r.heap.headRedex root = .ok none) (n) :
    stepTimes root n r = .ok r := by
  induction n with
  | zero => rfl
  | succ n ih =>
    rw [stepTimes, step_of_none e]
    exact ih

lemma stepTimes_add (m n) :
    stepTimes root (m + n) r = (stepTimes root m r).bind (stepTimes root n) := by
  induction m generalizing r with
  | zero =>
    rw [Nat.zero_add]
    rfl
  | succ m ih =>
    rw [Nat.succ_add, stepTimes, stepTimes]
    cases r.step root with
    | error fault => rfl
    | ok r₁ => exact ih

/-- Once nothing is found, more steps change nothing. -/
lemma stepTimes_of_le {m n} (e : stepTimes root m r = .ok r')
    (er : r'.heap.headRedex root = .ok none) (le : m ≤ n) : stepTimes root n r = .ok r' := by
  obtain ⟨k, rfl⟩ := Nat.exists_eq_add_of_le le
  rw [stepTimes_add, e]
  exact stepTimes_of_none er k

lemma steps_of_step (hn : r.heap.headRedex root ≠ .ok none) (e : r.step root = .ok r') :
    r'.steps = r.steps + 1 := by
  obtain ⟨⟨heap, found⟩, es, rfl⟩ := map_eq_ok_iff.1 e
  cases found with
  | none => exact absurd (Heap.step_eq_none_iff.1 es).1 hn
  | some slot => exact Array.size_push slot

/-- As long as there was a redex, every step has contracted one. -/
lemma steps_of_stepTimes {n} (e : stepTimes root n r = .ok r')
    (hn : ∀ m < n, ∀ r₁, stepTimes root m r = .ok r₁ → r₁.heap.headRedex root ≠ .ok none) :
    r'.steps = r.steps + n := by
  induction n generalizing r with
  | zero =>
    cases e
    rfl
  | succ n ih =>
    obtain ⟨r₁, e₁, e⟩ := bind_eq_ok_iff.1 e
    rw [ih e, steps_of_step (hn 0 n.succ_pos r rfl) e₁, Nat.add_assoc, Nat.add_comm 1]
    exact fun m lt r₂ e₂ => hn (m + 1) (Nat.succ_lt_succ lt) r₂ (bind_eq_ok_iff.2 ⟨r₁, e₁, e₂⟩)

/-! ### The two loops -/

lemma continueWithin_zero :
    continueWithin root 0 r =
      (r.heap.headRedex root).map fun found => (r, r.outcome found) := by
  rw [continueWithin]
  cases r.heap.headRedex root with
  | error fault => rfl
  | ok found => cases found <;> rfl

lemma continueWithin_of_none (e : r.heap.headRedex root = .ok none) (budget) :
    continueWithin root budget r = .ok (r, .reached r.steps) := by
  cases budget with
  | zero =>
    rw [continueWithin_zero, e]
    rfl
  | succ budget =>
    obtain ⟨heap, contracted⟩ := r
    rw [continueWithin, Heap.step_eq_none_iff.2 ⟨e, rfl⟩]
    rfl

lemma continueWithin_succ (hn : r.heap.headRedex root ≠ .ok none) (budget) :
    continueWithin root (budget + 1) r = (r.step root).bind (continueWithin root budget) :=
  bind_step_of_ne_none hn _ _

lemma continueToEnd_of_none (e : r.heap.headRedex root = .ok none) (fuel) :
    continueToEnd root (fuel + 1) r = .ok (some r) := by
  obtain ⟨heap, contracted⟩ := r
  rw [continueToEnd, Heap.step_eq_none_iff.2 ⟨e, rfl⟩]
  rfl

lemma continueToEnd_succ (hn : r.heap.headRedex root ≠ .ok none) (fuel) :
    continueToEnd root (fuel + 1) r = (r.step root).bind (continueToEnd root fuel) :=
  bind_step_of_ne_none hn _ _

/-- To continue within a budget is to take as many steps, and then to look for a redex. -/
lemma continueWithin_eq (budget) :
    continueWithin root budget r = (stepTimes root budget r).bind fun r' =>
      (r'.heap.headRedex root).map fun found => (r', r'.outcome found) := by
  induction budget generalizing r with
  | zero => exact continueWithin_zero
  | succ budget ih =>
    -- Without a redex the rest of the budget is not spent, and single steps do nothing.
    by_cases hn : r.heap.headRedex root = .ok none
    · rw [continueWithin_of_none hn, stepTimes_of_none hn]
      show _ = (r.heap.headRedex root).map _
      rw [hn]
      rfl
    · rw [continueWithin_succ hn, stepTimes]
      cases r.step root with
      | error fault => rfl
      | ok r₁ => exact ih

/-- To continue to the end is to take steps until there is no redex. -/
lemma continueToEnd_eq_some_iff {fuel} :
    continueToEnd root fuel r = .ok (some r') ↔
      ∃ n < fuel, stepTimes root n r = .ok r' ∧ r'.heap.headRedex root = .ok none := by
  induction fuel generalizing r with
  | zero =>
    refine iff_of_false nofun ?_
    rintro ⟨n, lt, -⟩
    exact Nat.not_lt_zero n lt
  | succ fuel ih =>
    by_cases hn : r.heap.headRedex root = .ok none
    · -- The run is at its end already, and further steps would leave it there.
      rw [continueToEnd_of_none hn]
      constructor
      · rintro ⟨⟩
        exact ⟨0, Nat.succ_pos fuel, rfl, hn⟩
      · rintro ⟨n, -, e, -⟩
        rw [stepTimes_of_none hn] at e
        cases e
        rfl
    · simp only [continueToEnd_succ hn, bind_eq_ok_iff, ih]
      constructor
      · rintro ⟨r₁, e₁, n, lt, e, er⟩
        exact ⟨n + 1, Nat.succ_lt_succ lt, bind_eq_ok_iff.2 ⟨r₁, e₁, e⟩, er⟩
      · rintro ⟨n, lt, e, er⟩
        cases n with
        | zero =>
          cases e
          exact absurd er hn
        | succ n =>
          obtain ⟨r₁, e₁, e⟩ := bind_eq_ok_iff.1 e
          exact ⟨r₁, e₁, n, Nat.lt_of_succ_lt_succ lt, e, er⟩

/-! ### Runs one after the other -/

@[simp] lemma followedBy_start (r : Run) : r.followedBy (.start r.heap) = r := by
  rw [followedBy, start, Array.append_empty]

lemma steps_followedBy (r r' : Run) : (r.followedBy r').steps = r.steps + r'.steps :=
  Array.size_append

lemma step_followedBy (r r' : Run) :
    (r.followedBy r').step root = (r'.step root).map r.followedBy := by
  rw [step, step]
  show (r'.heap.step root).map _ = _
  cases r'.heap.step root with
  | error fault => rfl
  | ok found =>
    obtain ⟨heap, found⟩ := found
    cases found with
    | none => rfl
    | some slot => simp [Except.map, followedBy]

/-- What a run does hangs on its heap alone. -/
lemma stepTimes_followedBy (n) (r r' : Run) :
    stepTimes root n (r.followedBy r') = (stepTimes root n r').map r.followedBy := by
  induction n generalizing r' with
  | zero => rfl
  | succ n ih =>
    rw [stepTimes, stepTimes, step_followedBy]
    cases r'.step root with
    | error fault => rfl
    | ok r₁ => exact ih r₁

/-- The outcome counts the steps that were before the run. -/
lemma outcome_followedBy (r r' : Run) (found) :
    (r.followedBy r').outcome found = (r'.outcome found).after r.steps := by
  cases found with
  | none => exact congrArg _ (steps_followedBy r r')
  | some redex => exact congrArg _ (steps_followedBy r r')

/-- A run does not depend on what was before it, but for its count. -/
lemma continueWithin_followedBy (budget) (r r' : Run) :
    continueWithin root budget (r.followedBy r') =
      (continueWithin root budget r').map fun (r'', o) => (r.followedBy r'', o.after r.steps) := by
  rw [continueWithin_eq, continueWithin_eq, stepTimes_followedBy]
  cases stepTimes root budget r' with
  | error fault => rfl
  | ok r₁ =>
    show (r₁.heap.headRedex root).map _ = ((r₁.heap.headRedex root).map _).map _
    cases r₁.heap.headRedex root with
    | error fault => rfl
    | ok found =>
      show Except.ok (r.followedBy r₁, (r.followedBy r₁).outcome found) = _
      rw [outcome_followedBy]
      rfl

lemma continueWithin_of_error {fault} (e : r.heap.headRedex root = .error fault) (budget) :
    continueWithin root budget r = .error fault := by
  cases budget with
  | zero =>
    rw [continueWithin_zero, e]
    rfl
  | succ budget =>
    rw [continueWithin_succ (by rw [e]; nofun), step_of_error e]
    rfl

/-- A part of a budget is spent on single steps, and the rest on the run behind them. -/
lemma continueWithin_add (m n) :
    continueWithin root (m + n) r = (stepTimes root m r).bind (continueWithin root n) := by
  rw [continueWithin_eq, stepTimes_add]
  cases stepTimes root m r with
  | error fault => rfl
  | ok r₁ => exact (continueWithin_eq n).symm

/-- A budget may be spent in two parts, the second on a run of the heap that is left. -/
lemma continueWithin_split (m n) :
    ((continueWithin root m r).bind fun (r₁, o) =>
      (continueWithin root n (.start r₁.heap)).map fun (r₂, o') =>
        (r₁.followedBy r₂, o'.after o.steps)) = continueWithin root (m + n) r := by
  rw [continueWithin_add, continueWithin_eq]
  cases stepTimes root m r with
  | error fault => rfl
  | ok r₁ =>
    show ((r₁.heap.headRedex root).map _).bind _ = continueWithin root n r₁
    cases er : r₁.heap.headRedex root with
    | error fault => exact (continueWithin_of_error er n).symm
    | ok found =>
      have ef : continueWithin root n (r₁.followedBy (.start r₁.heap)) = _ :=
        continueWithin_followedBy n r₁ (.start r₁.heap)
      rw [followedBy_start] at ef
      rw [ef]
      cases found <;> rfl

end Run

/-- A reduction with a budget is the bounded one. -/
lemma Heap.reduce_some (h : Heap) (fuel root budget) :
    h.reduce fuel root (some budget) = (h.whnfWithin root budget).map some := by
  rfl

/-- A reduction without a budget is the unbounded one. -/
lemma Heap.reduce_none (h : Heap) (fuel root) :
    h.reduce fuel root none =
      (h.whnf fuel root).map fun found => found.map fun r => (r, .reached r.steps) := by
  rw [reduce]
  cases h.whnf fuel root with
  | error fault => rfl
  | ok found => cases found <;> rfl

namespace Graph

variable {t : IndexTerm} {free : FreeNames} {root : Slot} {n : Nat}

lemma act_step_eq (r : Run) :
    act ⟨r.heap, root⟩ .step = (r.step root).map fun r' => ⟨r'.heap, root⟩ := by
  rw [act, Run.step]
  show (r.heap.step root).map _ = ((r.heap.step root).map _).map _
  cases r.heap.step root with
  | error fault => rfl
  | ok found =>
    obtain ⟨heap, found⟩ := found
    cases found <;> rfl

/-- Actions one after the other. -/
lemma acts_append {g : Graph} (actions actions') :
    g.acts (actions ++ actions') = (g.acts actions).bind fun g => g.acts actions' := by
  induction actions generalizing g with
  | nil => rfl
  | cons a actions ih =>
    rw [List.cons_append, acts, acts]
    cases g.act a with
    | error fault => rfl
    | ok g₁ => exact ih

/-- Single steps of a run are steps of the graph. -/
lemma acts_replicate_step (r : Run) :
    acts ⟨r.heap, root⟩ (.replicate n .step) =
      (Run.stepTimes root n r).map fun r' => ⟨r'.heap, root⟩ := by
  induction n generalizing r with
  | zero => rfl
  | succ n ih =>
    rw [List.replicate_succ, acts, act_step_eq, Run.stepTimes]
    cases r.step root with
    | error fault => rfl
    | ok r₁ => exact ih r₁

/-- Single steps do to the heap what they do to the term. -/
lemma IsTreeOf.stepTimes {r r' : Run} (tr : IsTreeOf ⟨r.heap, root⟩ t)
    (e : Run.stepTimes root n r = .ok r') :
    IsTreeOf ⟨r'.heap, root⟩ (t.acts (.replicate n .step)) := by
  refine tr.acts ?_
  rw [acts_replicate_step, e]
  rfl

/-- Single steps succeed if no heap before one of them is larger than heaps can be. -/
lemma IsTreeOf.exists_stepTimes {r : Run} (tr : IsTreeOf ⟨r.heap, root⟩ t) (cov : t.Covered free)
    (hf : 2 * free.size ≤ heapBound)
    (hs : ∀ m < n, ∀ r', Run.stepTimes root m r = .ok r' → r'.heap.size < heapBound) :
    ∃ r', Run.stepTimes root n r = .ok r' := by
  by_contra hn
  obtain ⟨g, e⟩ := tr.exists_acts cov hf (.replicate n .step) fun before g hp e => by
    obtain ⟨le, eb⟩ := List.prefix_replicate_iff.1 hp
    rw [eb, acts_replicate_step, map_eq_ok_iff] at e
    obtain ⟨r', e, rfl⟩ := e
    refine hs _ (lt_of_le_of_ne le fun en => ?_) r' e
    exact hn ⟨r', en ▸ e⟩
  rw [acts_replicate_step, map_eq_ok_iff] at e
  obtain ⟨r', e, -⟩ := e
  exact hn ⟨r', e⟩

end Graph

/-- Single steps from a source succeed if no heap before one of them is larger than heaps can be. -/
lemma Resolved.Stands.exists_stepTimes {r : Resolved} {t n} (st : r.Stands t)
    (hs : ∀ m < n, ∀ run, Run.stepTimes r.graph.root m (.start r.graph.heap) = .ok run →
      run.heap.size < heapBound) :
    ∃ run, Run.stepTimes r.graph.root n (.start r.graph.heap) = .ok run := by
  cases n with
  | zero => exact ⟨_, rfl⟩
  | succ n =>
    have hf := st.size_free_le.trans (Nat.le_of_lt (hs 0 n.succ_pos _ rfl))
    exact Graph.IsTreeOf.exists_stepTimes (r := .start r.graph.heap) st.tree st.covered hf hs

end WeakHead

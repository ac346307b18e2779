import WeakHead.Heap.Shift
import WeakHead.Proofs.IndexTerm.Occurrence

/-!
# Index arithmetic

A contraction in place works in four passes: the argument is raised over the binder that it enters,
copies of it, raised once more, are put over the variable of that binder, and the result is lowered.
Here are the passes as functions on terms. `lower_putCopies` says that together they are the
textbook substitution.

An index and a counter of binders have to stay below `indexBound`. `Shiftable` and `CopiesFit` say,
with the recursion of the passes, when they do; `HeadStepInRange` says the same of the whole step
through the occurrences of the variable that is replaced.
-/

namespace WeakHead.IndexTerm

/-- The number of nodes on the longest way down. -/
def height : IndexTerm → Nat
  | idx _ => 1
  | lam body => body.height + 1
  | app fn arg => max fn.height arg.height + 1

/-- The number of binders on the way down that crosses most of them. -/
def nesting : IndexTerm → Nat
  | idx _ => 0
  | lam body => body.nesting + 1
  | app fn arg => max fn.nesting arg.nesting

/-- Adds an amount, which may be negative, to the indices that point past `cutoff` binders. -/
def shiftBy (amount : Int) (cutoff : Nat) : IndexTerm → IndexTerm
  | idx index => idx (if cutoff ≤ index then (index + amount).toNat else index)
  | lam body => lam (body.shiftBy amount (cutoff + 1))
  | app fn arg => app (fn.shiftBy amount cutoff) (arg.shiftBy amount cutoff)

/-- Puts `expr`, raised by the binders around, over the variable of the binder `level` binders
further out, where `crossed` of them count for the raising. No other index changes. -/
def putCopies (expr : IndexTerm) (level crossed : Nat) : IndexTerm → IndexTerm
  | idx index => if index = level then expr.raise crossed 0 else idx index
  | lam body => lam (putCopies expr (level + 1) (crossed + 1) body)
  | app fn arg => app (putCopies expr level crossed fn) (putCopies expr level crossed arg)

/-- All indices that are shifted and all counters of binders stay in range. -/
def Shiftable (amount : Int) (cutoff : Nat) : IndexTerm → Prop
  | idx index => cutoff ≤ index → 0 ≤ index + amount ∧ index + amount < indexBound
  | lam body => cutoff + 1 < indexBound ∧ Shiftable amount (cutoff + 1) body
  | app fn arg => Shiftable amount cutoff fn ∧ Shiftable amount cutoff arg

/-- All copies can be raised and all counters of binders stay in range. -/
def CopiesFit (expr : IndexTerm) (level crossed : Nat) : IndexTerm → Prop
  | idx index => index = level → crossed ≠ 0 → expr.Shiftable crossed 0
  | lam body => level + 1 < indexBound ∧ CopiesFit expr (level + 1) (crossed + 1) body
  | app fn arg => CopiesFit expr level crossed fn ∧ CopiesFit expr level crossed arg

/-- The passes of the contraction at the head of the spine stay in range. -/
def HeadStepFits : IndexTerm → Prop
  | app (lam body) arg =>
    arg.Shiftable 1 0 ∧ CopiesFit (arg.raise 1 0) 0 0 body ∧
      (putCopies (arg.raise 1 0) 0 0 body).Shiftable (-1) 0
  | app fn _ => HeadStepFits fn
  | _ => True

/-- No index of the term is out of range. -/
def InRange (t : IndexTerm) : Prop :=
  ∀ n k, t.Occurs n k → k < indexBound

/-- The argument of the head redex keeps its indices in range when it is raised over the binder that
it enters, and when it is raised over the binders around an occurrence of the variable too. -/
def HeadStepInRange : IndexTerm → Prop
  | app (lam body) arg =>
    (arg.raise 1 0).InRange ∧ ∀ n, body.Occurs n n → (arg.raise (n + 1) 0).InRange
  | app fn _ => HeadStepInRange fn
  | _ => True

/-! ### Height -/

lemma height_pos (t : IndexTerm) : 0 < t.height := by
  cases t <;> simp [height]

/-- A walk that may go as deep as the term is high can take its first step. -/
lemma depth_eq_succ {t : IndexTerm} {depth} (hd : t.height ≤ depth) : ∃ d, depth = d + 1 :=
  Nat.exists_eq_succ_of_ne_zero (Nat.ne_of_gt (Nat.lt_of_lt_of_le t.height_pos hd))

lemma height_le_size (t : IndexTerm) : t.height ≤ t.size := by
  induction t with
  | idx index => exact Nat.le_refl 1
  | lam body ih => exact Nat.succ_le_succ ih
  | app fn arg ihf iha =>
    simp only [height, size]
    omega

lemma nesting_lt_height (t : IndexTerm) : t.nesting < t.height := by
  induction t with
  | idx index => exact Nat.one_pos
  | lam body ih => exact Nat.succ_lt_succ ih
  | app fn arg ihf iha =>
    simp only [nesting, height]
    omega

lemma Occurs.le_nesting {t : IndexTerm} {n k} (ho : t.Occurs n k) : n ≤ t.nesting := by
  induction ho with
  | idx index => exact Nat.le_refl 0
  | lam _ ih => exact Nat.succ_le_succ ih
  | fn _ ih => exact Nat.le_trans ih (Nat.le_max_left _ _)
  | arg _ ih => exact Nat.le_trans ih (Nat.le_max_right _ _)

@[simp] lemma height_raise (amount cutoff : Nat) (t : IndexTerm) :
    (t.raise amount cutoff).height = t.height := by
  induction t generalizing cutoff with
  | idx index => rfl
  | lam body ih => simp only [raise, height, ih]
  | app fn arg ihf iha => simp only [raise, height, ihf, iha]

/-- Copies lengthen no way down by more than their own height. -/
lemma height_putCopies_le (expr : IndexTerm) (level crossed : Nat) (t : IndexTerm) :
    (putCopies expr level crossed t).height ≤ t.height + expr.height := by
  induction t generalizing level crossed with
  | idx index =>
    simp only [putCopies]
    split
    · rw [height_raise]
      exact Nat.le_add_left _ _
    · exact Nat.le_add_right _ _
  | lam body ih =>
    have hb := ih (level + 1) (crossed + 1)
    simp only [putCopies, height]
    omega
  | app fn arg ihf iha =>
    have hf := ihf level crossed
    have ha := iha level crossed
    simp only [putCopies, height]
    omega

/-! ### The passes together -/

/-- To raise is to shift by an amount that is not negative. -/
lemma shiftBy_natCast (amount cutoff : Nat) (t : IndexTerm) :
    t.shiftBy amount cutoff = t.raise amount cutoff := by
  induction t generalizing cutoff with
  | idx index =>
    simp only [shiftBy, raise]
    congr 1
    split_ifs <;> omega
  | lam body ih => simp only [shiftBy, raise, ih]
  | app fn arg ihf iha => simp only [shiftBy, raise, ihf, iha]

/-- Raising twice over the same binders is raising once. -/
lemma raise_raise (m n cutoff : Nat) (t : IndexTerm) :
    (t.raise m cutoff).raise n cutoff = t.raise (m + n) cutoff := by
  induction t generalizing cutoff with
  | idx index =>
    simp only [raise]
    congr 1
    split_ifs <;> omega
  | lam body ih => simp only [raise, ih]
  | app fn arg ihf iha => simp only [raise, ihf, iha]

/-- What was raised over some binders can be shifted to any other number of them, at every cutoff
among those binders. -/
lemma shiftBy_raise {m cutoff inner : Nat} (n : Nat) (le : cutoff ≤ inner)
    (le' : inner ≤ cutoff + m) (t : IndexTerm) :
    (t.raise m cutoff).shiftBy (n - m) inner = t.raise n cutoff := by
  induction t generalizing cutoff inner with
  | idx index =>
    simp only [raise, shiftBy]
    congr 1
    split_ifs <;> omega
  | lam body ih => rw [raise, shiftBy, raise, ih (by omega) (by omega)]
  | app fn arg ihf iha => rw [raise, shiftBy, raise, ihf le le', iha le le']

/-- A shift up takes no index back under the cutoff, so a second shift moves the same indices. -/
lemma shiftBy_shiftBy {a : Int} (ha : 0 ≤ a) (b : Int) (cutoff : Nat) (t : IndexTerm) :
    (t.shiftBy a cutoff).shiftBy b cutoff = t.shiftBy (a + b) cutoff := by
  induction t generalizing cutoff with
  | idx index =>
    simp only [shiftBy]
    congr 1
    split_ifs <;> omega
  | lam body ih => simp only [shiftBy, ih]
  | app fn arg ihf iha => simp only [shiftBy, ihf, iha]

/-- Lowering takes back one step of a raising over more binders. -/
lemma lower_raise (n cutoff : Nat) (t : IndexTerm) :
    (t.raise (n + 1) cutoff).shiftBy (-1) (cutoff + n) = t.raise n cutoff := by
  have e := shiftBy_raise n (Nat.le_add_right cutoff n) (Nat.add_le_add_left n.le_succ cutoff) t
  rwa [show (n : Int) - ↑(n + 1) = -1 by omega] at e

/-- Raising the argument, putting copies in and lowering the result is substitution. -/
lemma lower_putCopies (arg body : IndexTerm) (n : Nat) :
    (putCopies (arg.raise 1 0) n n body).shiftBy (-1) n = instantiate n arg body := by
  induction body generalizing n with
  | idx index =>
    simp only [putCopies, instantiate]
    split_ifs with he hlt hlt
    · omega
    · rw [raise_raise, Nat.add_comm 1 n]
      have hl := lower_raise n 0 arg
      rwa [Nat.zero_add] at hl
    · simp only [shiftBy, if_neg (Nat.not_le.2 hlt)]
    · simp only [shiftBy, if_pos (Nat.le_of_not_lt hlt)]
      congr 1
      omega
  | lam body ih => simp only [putCopies, instantiate, shiftBy, ih]
  | app fn other ihf iha => simp only [putCopies, instantiate, shiftBy, ihf, iha]

/-! ### What stays in range -/

@[simp] lemma inRange_idx_iff {index} : (idx index).InRange ↔ index < indexBound := by
  simp only [InRange, occurs_idx_iff]
  constructor
  · exact fun h => h 0 index ⟨rfl, rfl⟩
  · rintro h _ _ ⟨rfl, rfl⟩
    exact h

@[simp] lemma inRange_lam_iff {body : IndexTerm} : (lam body).InRange ↔ body.InRange := by
  constructor
  · exact fun h n k ho => h (n + 1) k (.lam ho)
  · intro h n k ho
    cases ho with
    | lam ho => exact h _ k ho

@[simp] lemma inRange_app_iff {fn arg : IndexTerm} :
    (app fn arg).InRange ↔ fn.InRange ∧ arg.InRange := by
  constructor
  · exact fun h => ⟨fun n k ho => h n k (.fn ho), fun n k ho => h n k (.arg ho)⟩
  · rintro ⟨hf, ha⟩ n k ho
    cases ho with
    | fn ho => exact hf n k ho
    | arg ho => exact ha n k ho

/-- What can be raised over some binders can be raised over fewer. -/
lemma InRange.raise_of_le {t : IndexTerm} {m n cutoff : Nat} (hr : (t.raise n cutoff).InRange)
    (le : m ≤ n) : (t.raise m cutoff).InRange := by
  induction t generalizing cutoff with
  | idx index =>
    simp only [raise, inRange_idx_iff] at hr ⊢
    split_ifs at hr ⊢ <;> omega
  | lam body ih =>
    simp only [raise, inRange_lam_iff] at hr ⊢
    exact ih hr
  | app fn arg ihf iha =>
    simp only [raise, inRange_app_iff] at hr ⊢
    exact ⟨ihf hr.1, iha hr.2⟩

/-- What was raised over some binders, and is not too deep, can be shifted to another number of them
exactly if the result is in range. -/
lemma shiftable_raise_iff {t : IndexTerm} {m n cutoff inner : Nat} (le : cutoff ≤ inner)
    (le' : inner ≤ cutoff + m) (hr : t.InRange) (hh : inner + t.height ≤ indexBound) :
    (t.raise m cutoff).Shiftable (n - m) inner ↔ (t.raise n cutoff).InRange := by
  induction t generalizing cutoff inner with
  | idx index =>
    rw [inRange_idx_iff] at hr
    simp only [Shiftable, raise, inRange_idx_iff]
    split_ifs <;> omega
  | lam body ih =>
    have hp := body.height_pos
    simp only [height] at hh
    simp only [Shiftable, raise, inRange_lam_iff] at hr ⊢
    rw [ih (by omega) (by omega) hr (by omega)]
    exact and_iff_right (by omega)
  | app fn arg ihf iha =>
    simp only [height] at hh
    simp only [Shiftable, raise, inRange_app_iff] at hr ⊢
    rw [ihf le le' hr.1 (by omega), iha le le' hr.2 (by omega)]

/-- The index between two shifts may be out of range: only where it ends counts. -/
lemma shiftable_shiftBy_iff {t : IndexTerm} {a b : Int} {cutoff : Nat} (ha : 0 ≤ a) :
    (t.shiftBy a cutoff).Shiftable b cutoff ↔ t.Shiftable (a + b) cutoff := by
  induction t generalizing cutoff with
  | idx index =>
    simp only [shiftBy, Shiftable]
    split_ifs <;> omega
  | lam body ih => simp only [shiftBy, Shiftable, ih]
  | app fn arg ihf iha => simp only [shiftBy, Shiftable, ihf, iha]

/-- What can be shifted up can be shifted by less. -/
lemma Shiftable.of_le {t : IndexTerm} {a b : Int} {cutoff : Nat} (fit : t.Shiftable a cutoff)
    (hb : 0 ≤ b) (le : b ≤ a) : t.Shiftable b cutoff := by
  induction t generalizing cutoff with
  | idx index =>
    simp only [Shiftable] at fit ⊢
    omega
  | lam body ih => exact ⟨fit.1, ih fit.2⟩
  | app fn arg ihf iha => exact ⟨ihf fit.1, iha fit.2⟩

/-- A term that is not too deep can be raised exactly if the result is in range. -/
lemma shiftable_natCast_iff {t : IndexTerm} {amount cutoff : Nat} (hr : t.InRange)
    (hh : cutoff + t.height ≤ indexBound) :
    t.Shiftable amount cutoff ↔ (t.raise amount cutoff).InRange := by
  have e : (t.raise 0 cutoff).Shiftable (amount - (0 : Nat)) cutoff ↔
      (t.raise amount cutoff).InRange :=
    shiftable_raise_iff (Nat.le_refl _) (Nat.le_refl _) hr hh
  rwa [raise_zero, show (amount : Int) - (0 : Nat) = amount from Int.sub_zero _] at e

/-- A term that is not too deep can be lowered if no variable of the binder that goes is left. -/
lemma shiftable_lower {t : IndexTerm} {cutoff : Nat} (hr : t.InRange)
    (hh : cutoff + t.height ≤ indexBound) (hn : ∀ n, ¬ t.Occurs n (n + cutoff)) :
    t.Shiftable (-1) cutoff := by
  induction t generalizing cutoff with
  | idx index =>
    rw [inRange_idx_iff] at hr
    have h0 : index ≠ cutoff := by
      rintro rfl
      apply hn 0
      rw [Nat.zero_add]
      exact .idx index
    simp only [Shiftable]
    omega
  | lam body ih =>
    have hp := body.height_pos
    simp only [height] at hh
    rw [inRange_lam_iff] at hr
    refine ⟨by omega, ih hr (by omega) fun n ho => hn (n + 1) ?_⟩
    rw [Nat.add_right_comm, Nat.add_assoc]
    exact .lam ho
  | app fn arg ihf iha =>
    simp only [height] at hh
    rw [inRange_app_iff] at hr
    exact ⟨ihf hr.1 (by omega) fun n ho => hn n (.fn ho),
      iha hr.2 (by omega) fun n ho => hn n (.arg ho)⟩

/-- Copies fit into a term exactly if its binders can be counted and they are in range at each
occurrence of the variable that they replace. -/
lemma copiesFit_iff_nesting {expr t : IndexTerm} {level crossed : Nat} (he : expr.InRange)
    (hx : expr.height ≤ indexBound) (hl : level < indexBound) :
    CopiesFit expr level crossed t ↔ level + t.nesting < indexBound ∧
      ∀ n, t.Occurs n (n + level) → (expr.raise (crossed + n) 0).InRange := by
  induction t generalizing level crossed with
  | idx index =>
    have hs : expr.Shiftable crossed 0 ↔ (expr.raise crossed 0).InRange :=
      shiftable_natCast_iff he (by rwa [Nat.zero_add])
    simp only [CopiesFit, nesting, Nat.add_zero, hl, true_and, occurs_idx_iff, hs]
    constructor
    · rintro h n ⟨rfl, e⟩
      by_cases hc : crossed = 0
      · subst hc
        rwa [raise_zero]
      · exact h (by omega) hc
    · rintro h rfl -
      exact h 0 ⟨rfl, Nat.zero_add _⟩
  | lam body ih =>
    simp only [CopiesFit, nesting, occurs_lam_iff]
    constructor
    · rintro ⟨hl, h⟩
      rw [ih hl] at h
      refine ⟨by omega, ?_⟩
      rintro n ⟨m, rfl, ho⟩
      rw [← Nat.add_assoc, Nat.add_right_comm]
      apply h.2 m
      rwa [Nat.add_comm level, ← Nat.add_assoc]
    · rintro ⟨hn, h⟩
      rw [ih (show level + 1 < indexBound by omega)]
      refine ⟨by omega, by omega, fun n ho => ?_⟩
      rw [Nat.add_assoc, Nat.add_comm 1]
      apply h (n + 1)
      refine ⟨n, rfl, ?_⟩
      rwa [Nat.add_assoc, Nat.add_comm 1]
  | app fn arg ihf iha =>
    simp only [CopiesFit, nesting, ihf hl, iha hl, occurs_app_iff]
    constructor
    · rintro ⟨⟨hf, ohf⟩, ha, oha⟩
      refine ⟨by omega, fun n ho => ?_⟩
      cases ho with
      | inl ho => exact ohf n ho
      | inr ho => exact oha n ho
    · rintro ⟨hn, h⟩
      exact ⟨⟨by omega, fun n ho => h n (.inl ho)⟩, by omega, fun n ho => h n (.inr ho)⟩

/-- Copies fit into a term that is not too deep exactly if they are in range at each occurrence of
the variable that they replace. -/
lemma copiesFit_iff {expr t : IndexTerm} {level crossed : Nat} (he : expr.InRange)
    (hx : expr.height ≤ indexBound) (hh : level + t.height ≤ indexBound) :
    CopiesFit expr level crossed t ↔
      ∀ n, t.Occurs n (n + level) → (expr.raise (crossed + n) 0).InRange := by
  have ht := t.nesting_lt_height
  rw [copiesFit_iff_nesting he hx (by omega)]
  exact and_iff_right (by omega)

/-- A term stays in range if all copies that are put in are. -/
lemma InRange.putCopies {expr t : IndexTerm} {level crossed : Nat} (hr : t.InRange)
    (hc : ∀ n, t.Occurs n (n + level) → (expr.raise (crossed + n) 0).InRange) :
    (putCopies expr level crossed t).InRange := by
  induction t generalizing level crossed with
  | idx index =>
    simp only [IndexTerm.putCopies]
    split_ifs with e
    · subst e
      apply hc 0
      rw [Nat.zero_add]
      exact .idx index
    · exact hr
  | lam body ih =>
    simp only [IndexTerm.putCopies, inRange_lam_iff] at hr ⊢
    refine ih hr fun n ho => ?_
    rw [Nat.add_assoc, Nat.add_comm 1]
    apply hc (n + 1)
    rw [Nat.add_assoc, Nat.add_comm 1]
    exact .lam ho
  | app fn arg ihf iha =>
    simp only [IndexTerm.putCopies, inRange_app_iff] at hr ⊢
    exact ⟨ihf hr.1 fun n ho => hc n (.fn ho), iha hr.2 fun n ho => hc n (.arg ho)⟩

/-- Where the argument was raised first, putting copies in leaves no variable of the binder that
goes: this is why the lowering after it never meets an index zero of its own. -/
lemma not_occurs_putCopies (arg body : IndexTerm) (level n : Nat) :
    ¬ (putCopies (arg.raise 1 0) level level body).Occurs n (n + level) := by
  induction body generalizing level n with
  | idx index =>
    simp only [putCopies]
    split_ifs with e
    · rw [raise_raise, occurs_raise_iff]
      rintro ⟨i, -, h⟩
      split_ifs at h <;> omega
    · rw [occurs_idx_iff]
      omega
  | lam body ih =>
    rw [putCopies, occurs_lam_iff]
    rintro ⟨m, rfl, ho⟩
    apply ih (level + 1) m
    rwa [Nat.add_right_comm, Nat.add_assoc] at ho
  | app fn other ihf iha =>
    rw [putCopies, occurs_app_iff]
    rintro (ho | ho)
    · exact ihf level n ho
    · exact iha level n ho

/-- Where there is no head step nothing can leave the range. -/
lemma headStepFits_of_none {t : IndexTerm} (e : t.headStep? = none) : t.HeadStepFits := by
  fun_induction headStep? t with
  | case1 body arg => cases e
  | case2 fn arg hfn ih =>
    rw [HeadStepFits]
    · exact ih (Option.map_eq_none_iff.1 e)
    · exact hfn
  | case3 t hbeta happ =>
    cases t with
    | app fn arg => exact absurd rfl (happ fn arg)
    | _ => trivial

/-- The passes of a head step stay in range exactly if the raised copies of the argument do. -/
lemma headStepFits_iff {t : IndexTerm} (hr : t.InRange) (hs : t.size ≤ indexBound) :
    t.HeadStepFits ↔ t.HeadStepInRange := by
  fun_induction HeadStepFits t with
  | case1 body arg =>
    simp only [inRange_app_iff, inRange_lam_iff] at hr
    simp only [size] at hs
    have hb := body.height_le_size
    have ha := arg.height_le_size
    have hs₁ : arg.Shiftable 1 0 ↔ (arg.raise 1 0).InRange :=
      shiftable_natCast_iff hr.2 (by omega)
    rw [HeadStepInRange, hs₁]
    refine and_congr_right fun hr₁ => ?_
    have hf : CopiesFit (arg.raise 1 0) 0 0 body ↔ _ :=
      copiesFit_iff hr₁ (by rw [height_raise]; omega) (by omega)
    have e : ∀ n, (arg.raise 1 0).raise (0 + n) 0 = arg.raise (n + 1) 0 := fun n => by
      rw [raise_raise, Nat.zero_add, Nat.add_comm]
    simp only [e, Nat.add_zero] at hf
    rw [hf]
    -- The lowering needs no condition of its own: no index zero is left for it to lower.
    refine and_iff_left_of_imp fun hc => shiftable_lower (hr.1.putCopies fun n ho => ?_) ?_ ?_
    · rw [e]
      exact hc n ho
    · have hp := height_putCopies_le (arg.raise 1 0) 0 0 body
      rw [height_raise] at hp
      omega
    · exact not_occurs_putCopies arg body 0
  | case2 fn arg hfn ih =>
    rw [inRange_app_iff] at hr
    simp only [size] at hs
    rw [ih hr.1 (by omega), HeadStepInRange]
    exact hfn
  | case3 t hbeta happ =>
    cases t with
    | idx index => exact Iff.rfl
    | lam body => exact Iff.rfl
    | app fn arg => exact absurd rfl (happ fn arg)

/-! ### What scope gives -/

variable {t : IndexTerm} {count : Nat}

/-- A term whose free slots are few is in range. -/
lemma inRange_of_freeSlot_lt (hs : ∀ s, t.FreeSlot s → s < count)
    (hb : t.size + count ≤ indexBound) : t.InRange := by
  intro n k ho
  have lt := forall_freeSlot_lt_iff.1 hs n k ho
  have hn := ho.lt_size
  omega

/-- A term whose free slots are few can be raised by few. -/
lemma inRange_raise_of_freeSlot_lt {amount cutoff} (hs : ∀ s, t.FreeSlot s → s < count)
    (hb : t.size + count + amount ≤ indexBound) : (t.raise amount cutoff).InRange := by
  intro n k ho
  obtain ⟨i, hi, rfl⟩ := occurs_raise_iff.1 ho
  have lt := forall_freeSlot_lt_iff.1 hs n i hi
  have hn := hi.lt_size
  split_ifs <;> omega

/-- In a term whose free slots are few a head step stays in range: the binders around an occurrence
of the variable and the nodes of the argument are all nodes of the term. -/
lemma headStepInRange_of_freeSlot_lt (hs : ∀ s, t.FreeSlot s → s < count)
    (hb : t.size + count ≤ indexBound) : t.HeadStepInRange := by
  fun_induction HeadStepInRange t with
  | case1 body arg =>
    have ha : ∀ s, arg.FreeSlot s → s < count := fun s h => hs s (freeSlot_app_iff.2 (.inr h))
    simp only [size] at hb
    refine ⟨inRange_raise_of_freeSlot_lt ha (by omega), fun n ho => ?_⟩
    have hn := ho.lt_size
    exact inRange_raise_of_freeSlot_lt ha (by omega)
  | case2 fn arg hfn ih =>
    simp only [size] at hb
    exact ih (fun s h => hs s (freeSlot_app_iff.2 (.inl h))) (by omega)
  | case3 => trivial

end WeakHead.IndexTerm

import WeakHead.Heap.Readback
import WeakHead.Proofs.BinderNames
import WeakHead.Proofs.Heap.Tree

/-!
# Readback of a term

A readback writes the term with names that is got by naming the binders after their depth and the
free indices after the table. The supply of names is carried along by the walk, but what it answers
does not hang on the order of the questions.
-/

namespace WeakHead

open BinderNames

/-- The term with names. The binder inside `d` others is called `binder d`, and `free` names the
indices that point past all binders. -/
def IndexTerm.named (binder free : Nat → String) (depth : Nat) : IndexTerm → Term
  | idx index =>
    if index < depth then .var (binder (depth - 1 - index)) else .var (free (index - depth))
  | lam body => .abs (binder depth) (body.named binder free (depth + 1))
  | app fn arg => .app (fn.named binder free depth) (arg.named binder free depth)

/-- The term with names as which a term with indices is read back. -/
def IndexTerm.readback (free : FreeNames) (depth : Nat) (t : IndexTerm) : Term :=
  t.named (binderName free.names) (Readback.freeText free) depth

namespace Readback

/-- The second readback has written `text` more than the first, and its supply is in order. -/
structure Wrote (free : FreeNames) (r r' : Readback) (text : String) : Prop where
  out_eq : r'.out = r.out ++ text
  faithful : r'.binders.Faithful
  taken_eq : r'.binders.taken = free.names

variable {free : FreeNames} {r r₁ r₂ : Readback} {text text' : String}

lemma wrote_start (free : FreeNames) : Wrote free (start free) (start free) "" :=
  ⟨rfl, faithful_avoiding free.names, rfl⟩

/-- Texts are written after one another. -/
lemma Wrote.trans (w : Wrote free r r₁ text) (w' : Wrote free r₁ r₂ text') :
    Wrote free r r₂ (text ++ text') :=
  ⟨by rw [w'.out_eq, w.out_eq, String.append_assoc], w'.faithful, w'.taken_eq⟩

/-- A text can be written at any time. -/
lemma Wrote.write (w : Wrote free r r₁ text) (text') :
    Wrote free r (r₁.write text') (text ++ text') :=
  w.trans ⟨rfl, w.faithful, w.taken_eq⟩

/-- A binder is written under the name of its depth, whatever was written before. -/
lemma Wrote.writeBinder (w : Wrote free r r₁ text) (depth) :
    Wrote free r (r₁.writeBinder depth) (text ++ binderName free.names depth) := by
  obtain ⟨en, fb, et⟩ := w.faithful.nameAt depth
  rw [w.taken_eq] at en et
  refine w.trans ⟨?_, fb, et⟩
  rw [← en]
  rfl

lemma within_idx {h : Heap} {slot index} (hg : h.get slot = .ok (.idx index)) (bound depth r) :
    within h free (bound + 1) slot depth r =
      .ok (if index < depth then r.writeBinder (depth - 1 - index)
        else r.write (freeText free (index - depth))) := by
  rw [within, hg]
  show (if index < depth then _ else _) = _
  split <;> rfl

lemma within_lam {h : Heap} {slot body} (hg : h.get slot = .ok (.lam body)) (bound depth r) :
    within h free (bound + 1) slot depth r =
      within h free bound body (depth + 1) (((r.write "λ").writeBinder depth).write ".") := by
  rw [within, hg]
  rfl

lemma within_app {h : Heap} {slot fn arg} (hg : h.get slot = .ok (.app fn arg)) (bound depth r) :
    within h free (bound + 1) slot depth r =
      (within h free bound fn depth (r.write "(")).bind fun r =>
        (within h free bound arg depth (r.write " ")).map (·.write ")") := by
  rw [within, hg]
  rfl

end Readback

open Readback in
/-- The walk writes the term that is read back. -/
lemma Heap.Unfolds.readbackWithin_ok {h : Heap} {slot t} (un : h.Unfolds slot t) {bound}
    (hd : t.height ≤ bound) {free r r₁ text} (w : Wrote free r r₁ text) (depth) :
    ∃ r₂, within h free bound slot depth r₁ = .ok r₂ ∧
      Wrote free r r₂ (text ++ (t.readback free depth).text) := by
  induction t generalizing slot bound r₁ text depth with
  | idx index =>
    obtain ⟨bound, rfl⟩ := IndexTerm.depth_eq_succ hd
    cases un with
    | idx hg =>
      refine ⟨_, within_idx hg bound depth r₁, ?_⟩
      rw [IndexTerm.readback, IndexTerm.named]
      split
      · exact w.writeBinder _
      · exact w.write _
  | lam body ih =>
    obtain ⟨bound, rfl⟩ := IndexTerm.depth_eq_succ hd
    cases un with
    | lam hg unb =>
      have w' := ((w.write "λ").writeBinder depth).write "."
      obtain ⟨r₂, e, w''⟩ := ih unb (Nat.le_of_succ_le_succ hd) w' (depth + 1)
      refine ⟨r₂, by rw [within_lam hg, e], ?_⟩
      simpa only [IndexTerm.readback, IndexTerm.named, Term.text, String.append_assoc] using w''
  | app fn arg ihf iha =>
    obtain ⟨bound, rfl⟩ := IndexTerm.depth_eq_succ hd
    have hd := Nat.le_of_succ_le_succ hd
    cases un with
    | app hg unf una =>
      obtain ⟨r₂, e, w₂⟩ := ihf unf (le_of_max_le_left hd) (w.write "(") depth
      obtain ⟨r₃, e', w₃⟩ := iha una (le_of_max_le_right hd) (w₂.write " ") depth
      refine ⟨r₃.write ")", ?_, ?_⟩
      · rw [within_app hg, e, Except.bind, e']
        rfl
      · simpa only [IndexTerm.readback, IndexTerm.named, Term.text, String.append_assoc] using
          w₃.write ")"

/-- A root that stands for a term is written as this term with names. -/
lemma Heap.Unfolds.readback_ok {g : Graph} {t} (un : g.heap.Unfolds g.root t) (free) :
    g.readback free = .ok (t.readback free 0).text := by
  obtain ⟨r, e, w⟩ := un.readbackWithin_ok un.height_le (Readback.wrote_start free) 0
  rw [Graph.readback, e]
  show Except.ok r.out = _
  rw [w.out_eq]
  simp [Readback.start]

lemma Heap.TreeAt.readback_ok {g : Graph} {t S} (tr : g.heap.TreeAt g.root t S) (free) :
    g.readback free = .ok (t.readback free 0).text :=
  tr.unfolds.readback_ok free

end WeakHead

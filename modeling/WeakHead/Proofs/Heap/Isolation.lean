import WeakHead.Proofs.Heap.Alike.Substitution
import WeakHead.Proofs.IndexTerm.Replacement

/-!
# Copies are isolated

Where a term and what replaces one of its indices stand in trees apart from each other, substitution
in place captures nothing, and every occurrence gets a copy of its own: no slot is part of two
copies, nor of a copy and of what was copied, and what was copied stays as it is. This rests on what
the walk leaves alone: the nodes above the occurrences keep their places, so the old path to an
occurrence leads to its copy.

Main statement: `substitute_isolates`.
-/

namespace WeakHead.Heap

variable {h h' : Heap} {within expr : Slot} {t u : IndexTerm} {level : Nat}

/-- What a substitution under `within` leaves alone, and what it keeps apart. -/
structure Isolates (h h' : Heap) (within expr : Slot) : Prop where
  /-- What stands under `within` is a tree again. -/
  spansTree : h'.SpansTree within
  /-- It has no slot in common with what was copied. -/
  apart : ∀ x, h'.Reaches within x → ¬ h'.Reaches expr x
  /-- What stands at the places of two variables now has no slot in common. -/
  places_apart : ∀ x y i j, h.Reaches within x → h.get x = .ok (.idx i) → h.Reaches within y →
    h.get y = .ok (.idx j) → x ≠ y → ∀ z, h'.Reaches x z → ¬ h'.Reaches y z
  /-- What was copied is still there, slot by slot. -/
  kept : ∀ x, h.Reaches expr x → h'.get x = h.get x

/-! ### Old paths -/

/-- No path goes on from a variable. -/
lemma follow_idx {x index p y} (hg : h.get x = .ok (.idx index)) (e : h.follow x p = some y) :
    y = x := by
  rcases follow_eq_some hg e with ⟨-, e⟩ | ⟨i, part, q, -, hp, -⟩
  · exact e
  · cases hp

/-- In a tree that developed, what stands at the places of different variables is apart. -/
lemma Develops.places_apart (dv : Develops h h') (sp : h'.SpansTree within) {x y i j}
    (rx : h.Reaches within x) (hx : h.get x = .ok (.idx i)) (ry : h.Reaches within y)
    (hy : h.get y = .ok (.idx j)) (ne : x ≠ y) {z} (rz : h'.Reaches x z) : ¬ h'.Reaches y z := by
  obtain ⟨p, ep⟩ := rx
  obtain ⟨q, eq⟩ := ry
  obtain ⟨r, er⟩ := rz
  rintro ⟨s, es⟩
  have e : p ++ r = q ++ s := sp _ _ z
    (by rw [follow_append (dv.follow ep), er]) (by rw [follow_append (dv.follow eq), es])
  -- One of the old paths begins with the other, and a path through a variable ends there.
  rcases List.append_eq_append_iff.1 e with ⟨p', rfl, -⟩ | ⟨q', rfl, -⟩
  · rw [follow_append ep] at eq
    exact ne (follow_idx hx eq).symm
  · rw [follow_append eq] at ep
    exact ne (follow_idx hy ep)

/-! ### The whole walk -/

/-- A substitution develops the heap. -/
lemma Unfolds.substitute_develops (un : h.Unfolds within t) (unE : h.Unfolds expr u)
    (e : h.substitute within expr level = .ok h') : Develops h h' := by
  have ag := (alike_self h).substitute ⟨rfl, t, un⟩ ⟨rfl, u, unE⟩ unE un level
  rw [e] at ag
  obtain ⟨-, -, -, dv⟩ := ag.of_ok
  exact dv

/-- A substitution in a tree isolates the copies that it puts in. -/
lemma TreeAt.isolates {S E} (tr : h.TreeAt within t S) (trE : h.TreeAt expr u E)
    (dis : Disjoint S E) (e : h.substitute within expr level = .ok h') :
    Isolates h h' within expr := by
  obtain ⟨⟨S', tr', w⟩, kp⟩ := tr.substituted trE dis e
  have dis' : Disjoint S' E := w.disjoint dis fun x hx => trE.lt_size hx
  have trE' := trE.frame kp dis.symm
  refine ⟨tr'.spansTree, fun x hr hr' => ?_, ?_, fun x hr => ?_⟩
  · exact Finset.disjoint_left.1 dis' (tr'.mem_iff_reaches.2 hr) (trE'.mem_iff_reaches.2 hr')
  · intro x y i j rx hx ry hy ne z
    exact (tr.unfolds.substitute_develops trE.unfolds e).places_apart tr'.spansTree rx hx ry hy ne
  · have hm := trE.mem_iff_reaches.2 hr
    exact kp.get_eq (trE.lt_size hm) (Finset.disjoint_right.1 dis hm)

/-- Substitution in place, in a tree apart from the tree that is put in. It succeeds exactly if the
binders of the one can be counted and the other can be raised to each of its occurrences. Then every
index that counts `level` past its `n` binders is replaced by the other term raised by `n`, no other
index changes, and so nothing is captured; and the copies are isolated. -/
theorem substitute_isolates (un : h.Unfolds within t) (sp : h.SpansTree within)
    (unE : h.Unfolds expr u) (spE : h.SpansTree expr)
    (apart : ∀ x, h.Reaches within x → ¬ h.Reaches expr x)
    (hs : h.size ≤ indexBound) (hu : u.InRange) {level : Nat} (hl : level < indexBound) :
    ((∃ h', h.substitute within expr level = .ok h') ↔ level + t.nesting < indexBound ∧
      ∀ n, t.Occurs n (level + n) → (u.raise n 0).InRange) ∧
    ∀ h', h.substitute within expr level = .ok h' →
      h'.Unfolds within
        (t.mapVars (fun n index => if index = level + n then u.raise n 0 else .idx index) 0) ∧
      h'.Unfolds within (t.substAll fun index => if index = level then u else .idx index) ∧
      Isolates h h' within expr := by
  obtain ⟨S, tr⟩ := un.treeAt sp
  obtain ⟨E, trE⟩ := unE.treeAt spE
  have dis : Disjoint S E := Finset.disjoint_left.2 fun x hS hE =>
    apart x (tr.mem_iff_reaches.1 hS) (trE.mem_iff_reaches.1 hE)
  constructor
  · have hh : u.height ≤ indexBound := unE.height_le_size.trans hs
    rw [tr.exists_substitute_iff trE dis, IndexTerm.copiesFit_iff_nesting hu hh hl]
    simp only [Nat.zero_add, Nat.add_comm level]
  · intro h' e
    obtain ⟨⟨S', tr', -⟩, -⟩ := tr.substituted trE dis e
    have eq := IndexTerm.putCopies_eq_mapVars u level 0 t
    rw [Nat.add_zero] at eq
    rw [eq] at tr'
    refine ⟨tr'.unfolds, ?_, tr.isolates trE dis e⟩
    rw [IndexTerm.mapVars_eq_substAll, IndexTerm.replacing_zero] at tr'
    exact tr'.unfolds

/-- The terms `((λ 1) 0)` and `(λ (0 1))`, one after the other. -/
def bodyAndArg : Heap :=
  ⟨#[.idx 1, .lam 0, .idx 0, .app 1 2, .idx 0, .idx 1, .app 4 5, .lam 6]⟩

lemma bodyAndArg_body : bodyAndArg.TreeAt 3 (.app (.lam (.idx 1)) (.idx 0)) (Finset.Ico 0 4) :=
  (PostAt.app (.lam (.idx rfl) rfl) (.idx rfl) rfl).tree

lemma bodyAndArg_arg : bodyAndArg.TreeAt 7 (.lam (.app (.idx 0) (.idx 1))) (Finset.Ico 4 8) :=
  (PostAt.lam (.app (.idx rfl) (.idx rfl) rfl) rfl).tree

lemma bodyAndArg_apart (x) (hr : bodyAndArg.Reaches 3 x) : ¬ bodyAndArg.Reaches 7 x := fun hr' =>
  Finset.disjoint_left.1 (Finset.Ico_disjoint_Ico_consecutive 0 4 8)
    (bodyAndArg_body.mem_iff_reaches.2 hr) (bodyAndArg_arg.mem_iff_reaches.2 hr')

/-- Both variables of `((λ 1) 0)` are one, under one binder and under none. -/
theorem substitute_isolates_under_binder : ∃ h', bodyAndArg.substitute 3 7 0 = .ok h' ∧
    h'.Unfolds 3 (.app (.lam (.lam (.app (.idx 0) (.idx 2)))) (.lam (.app (.idx 0) (.idx 1)))) ∧
    Isolates bodyAndArg h' 3 7 := by
  have hl : 0 < indexBound := by decide
  obtain ⟨ok, result⟩ := substitute_isolates bodyAndArg_body.unfolds bodyAndArg_body.spansTree
    bodyAndArg_arg.unfolds bodyAndArg_arg.spansTree bodyAndArg_apart (by decide)
    (by simp [indexBound]) hl
  obtain ⟨h', e⟩ := ok.2 (by simp [IndexTerm.nesting, IndexTerm.raise, indexBound])
  obtain ⟨un, -, iso⟩ := result h' e
  exact ⟨h', e, un, iso⟩

end WeakHead.Heap

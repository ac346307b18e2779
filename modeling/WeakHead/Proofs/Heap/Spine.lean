import WeakHead.Proofs.Heap.Ending

/-!
# The spine alone decides

The spine from a slot is the chain of functions: an application is followed by its function, and any
other node, or a slot that is not there, is the end. The search for a redex reads the nodes of the
spine and nothing else, whatever the rest of the heap holds; what it answers can be read off the
last two of them.

A spine meets no slot twice, since the chain goes on from a slot in one way only. So it is never
longer than the search may go, and the search is endless exactly where there is no spine.

Main statement: `headRedex_by_spine`.
-/

namespace WeakHead.Heap

/-- The slots on the chain of functions from a slot to its end. -/
inductive Spine (h : Heap) : Slot → List Slot → Prop where
  | last {slot} :
    (∀ fn arg, h.get slot ≠ .ok (.app fn arg)) →
    Spine h slot [slot]
  | app {slot fn arg rest} :
    h.get slot = .ok (.app fn arg) →
    Spine h fn rest →
    Spine h slot (slot :: rest)

/-- The slot applies an abstraction. -/
def Applies (h : Heap) (redex : Redex) : Prop :=
  ∃ fn, h.get redex.slot = .ok (.app fn redex.arg) ∧ h.get fn = .ok (.lam redex.body)

/-- The slot applies what is an application itself. -/
def AppliesApp (h : Heap) (x : Slot) : Prop :=
  ∃ fn arg fn' arg', h.get x = .ok (.app fn arg) ∧ h.get fn = .ok (.app fn' arg')

/-- The slot applies an index. -/
def AppliesIndex (h : Heap) (x : Slot) : Prop :=
  ∃ fn arg i, h.get x = .ok (.app fn arg) ∧ h.get fn = .ok (.idx i)

/-- The slot is in the list, and all before it apply applications. -/
def AppliedDownTo (h : Heap) (spine : List Slot) (x : Slot) : Prop :=
  ∃ above below, spine = above ++ x :: below ∧ ∀ y ∈ above, h.AppliesApp y

/-- Why no redex can be looked for at a slot: it is out of range, or its node has names. -/
def spineFault? (h : Heap) (x : Slot) : Option Fault :=
  match h.get x with
  | .error fault => some fault
  | .ok (.var name) => some (.namedOnSpine x (.var name))
  | .ok (.abs binder body) => some (.namedOnSpine x (.abs binder body))
  | .ok (.idx _) | .ok (.lam _) | .ok (.app _ _) => none

variable {h h' : Heap} {root slot fn arg : Slot} {spine rest ys : List Slot} {depth : Nat}
  {redex : Redex} {fault : Fault}

/-! ### The length of a spine -/

namespace Spine

/-- A slot has one spine. -/
lemma unique (sp : h.Spine slot spine) (sp' : h.Spine slot ys) : spine = ys := by
  induction sp generalizing ys with
  | last hn =>
    cases sp' with
    | last _ => rfl
    | app hg _ => exact absurd hg (hn _ _)
  | app hg _ ih =>
    cases sp' with
    | last hn => exact absurd hg (hn _ _)
    | app hg' sp' =>
      cases hg.symm.trans hg'
      rw [ih sp']

/-- From each of its slots on, a spine is the spine of that slot. -/
lemma suffix (sp : h.Spine slot spine) {x} (hx : x ∈ spine) :
    ∃ ys, h.Spine x ys ∧ ys <:+ spine := by
  induction sp with
  | last hn =>
    cases List.mem_singleton.1 hx
    exact ⟨_, .last hn, List.suffix_refl _⟩
  | app hg sp ih =>
    cases List.mem_cons.1 hx with
    | inl e =>
      subst e
      exact ⟨_, .app hg sp, List.suffix_refl _⟩
    | inr hx =>
      obtain ⟨ys, spx, suf⟩ := ih hx
      exact ⟨ys, spx, suf.trans (List.suffix_cons _ _)⟩

lemma nodup (sp : h.Spine slot spine) : spine.Nodup := by
  induction sp with
  | last _ => exact List.nodup_singleton _
  | @app slot fn arg rest hg sp ih =>
    refine List.nodup_cons.2 ⟨fun hm => ?_, ih⟩
    -- The spine from here would be a part of what follows here.
    obtain ⟨ys, spx, suf⟩ := sp.suffix hm
    rw [spx.unique (.app hg sp)] at suf
    exact absurd suf.length_le (Nat.not_succ_le_self rest.length)

/-- All slots of a spine but the last are there. -/
lemma exists_last (sp : h.Spine slot spine) : ∃ last, ∀ x ∈ spine, x = last ∨ x < h.size := by
  induction sp with
  | @last slot _ => exact ⟨slot, fun x hx => .inl (List.mem_singleton.1 hx)⟩
  | app hg _ ih =>
    obtain ⟨last, others⟩ := ih
    refine ⟨last, fun x hx => ?_⟩
    cases List.mem_cons.1 hx with
    | inl e => exact .inr (e ▸ lt_size_of_get_eq_ok hg)
    | inr hx => exact others x hx

/-- The search may go as deep as any spine is long. -/
lemma length_le (sp : h.Spine slot spine) : spine.length ≤ h.depthBound := by
  obtain ⟨last, others⟩ := sp.exists_last
  have sub : spine ⊆ last :: List.range h.size := by
    intro x hx
    rw [List.mem_cons, List.mem_range]
    exact others x hx
  have le := (List.subperm_of_subset sp.nodup sub).length_le
  rwa [List.length_cons, List.length_range] at le

lemma root_mem (sp : h.Spine slot spine) : slot ∈ spine := by
  cases sp with
  | last _ => exact List.mem_cons_self
  | app _ _ => exact List.mem_cons_self

/-- Where nothing was changed on a spine, it is the spine still. -/
lemma congr (sp : h.Spine slot spine) (same : ∀ x ∈ spine, h'.nodes[x]? = h.nodes[x]?) :
    h'.Spine slot spine := by
  induction sp with
  | last hn =>
    refine .last fun fn arg hg => hn fn arg ?_
    rw [get_eq_ok_iff, same _ List.mem_cons_self] at hg
    exact get_eq_ok_iff.2 hg
  | app hg _ ih =>
    have hg' := (same _ List.mem_cons_self).trans (get_eq_ok_iff.1 hg)
    exact .app (get_eq_ok_iff.2 hg') (ih fun x hx => same x (List.mem_cons_of_mem _ hx))

/-- Behind an application whose function is none there is that function and the end. -/
lemma eq_append (sp : h.Spine root spine) {x} (hx : x ∈ spine) (hg : h.get x = .ok (.app fn arg))
    (hn : ∀ fn' arg', h.get fn ≠ .ok (.app fn' arg')) : ∃ above, spine = above ++ [x, fn] := by
  obtain ⟨ys, spx, above, e⟩ := sp.suffix hx
  rw [spx.unique (.app hg (.last hn))] at e
  exact ⟨above, e.symm⟩

lemma length_pos (sp : h.Spine slot spine) : 0 < spine.length :=
  List.length_pos_of_mem sp.root_mem

lemma exists_cons (sp : h.Spine slot spine) : ∃ rest, spine = slot :: rest := by
  cases sp with
  | last _ => exact ⟨[], rfl⟩
  | app _ _ => exact ⟨_, rfl⟩

lemma eq_singleton (sp : h.Spine slot spine) (hn : ∀ fn arg, h.get slot ≠ .ok (.app fn arg)) :
    spine = [slot] :=
  sp.unique (.last hn)

end Spine

/-! ### The search along a spine -/

lemma not_appliedDownTo_nil {x} : ¬ h.AppliedDownTo [] x := by
  rintro ⟨above, below, e, -⟩
  cases above <;> cases e

lemma appliedDownTo_cons_iff {x y} :
    h.AppliedDownTo (y :: rest) x ↔ x = y ∨ h.AppliesApp y ∧ h.AppliedDownTo rest x := by
  constructor
  · rintro ⟨above, below, e, up⟩
    cases above with
    | nil => exact .inl (List.cons.inj e).1.symm
    | cons z above =>
      obtain ⟨rfl, rfl⟩ := List.cons.inj e
      exact .inr ⟨up _ List.mem_cons_self, above, below, rfl,
        fun z hz => up z (List.mem_cons_of_mem _ hz)⟩
  · rintro (rfl | ⟨ap, above, below, rfl, up⟩)
    · exact ⟨[], rest, rfl, nofun⟩
    · exact ⟨y :: above, below, rfl, List.forall_mem_cons.2 ⟨ap, up⟩⟩

lemma spineFault?_app (hg : h.get slot = .ok (.app fn arg)) : h.spineFault? slot = none := by
  rw [spineFault?, hg]

/-- A spine with a redex on it starts with an application. -/
lemma Spine.get_app_of_down (sp : h.Spine slot spine) (ap : h.Applies redex)
    (down : h.AppliedDownTo spine redex.slot) : ∃ fn arg, h.get slot = .ok (.app fn arg) := by
  obtain ⟨rest, rfl⟩ := sp.exists_cons
  rcases appliedDownTo_cons_iff.1 down with e | ⟨⟨fn, arg, _, _, hg, _⟩, _⟩
  · obtain ⟨fn, hg, -⟩ := ap
    exact ⟨fn, redex.arg, e ▸ hg⟩
  · exact ⟨fn, arg, hg⟩

/-- At the end of the spine the search has an answer. -/
lemma headRedexWithin_last (hn : ∀ fn arg, h.get slot ≠ .ok (.app fn arg)) (hd : 1 ≤ depth) :
    h.headRedexWithin depth slot =
      match h.spineFault? slot with
      | some fault => .error fault
      | none => .ok none := by
  obtain ⟨depth, rfl⟩ := Nat.exists_eq_add_of_le' hd
  unfold spineFault?
  cases hg : h.get slot with
  | error fault =>
    rw [headRedexWithin, hg]
    rfl
  | ok node =>
    cases node with
    | app fn arg => exact absurd hg (hn fn arg)
    | _ =>
      rw [headRedexWithin, hg]
      rfl

/-- Where the function is no abstraction, the search answers what it does at the function. -/
lemma headRedexWithin_fn (hg : h.get slot = .ok (.app fn arg))
    (hn : ∀ body, h.get fn ≠ .ok (.lam body)) (depth) :
    h.headRedexWithin (depth + 2) slot = h.headRedexWithin (depth + 1) fn := by
  rw [headRedexWithin_app_eq hg]
  cases hf : h.get fn with
  | error fault =>
    rw [headRedexWithin, hf]
    rfl
  | ok node =>
    cases node with
    | lam body => exact absurd hf (hn body)
    | _ => rfl

namespace Spine

/-- One turn of the search: it is over at an abstraction, and otherwise goes on along the spine. -/
lemma headRedexWithin_cases (sp : h.Spine fn rest) (hg : h.get slot = .ok (.app fn arg))
    (hd : (slot :: rest).length ≤ depth) :
    (∃ body, h.get fn = .ok (.lam body) ∧
      h.headRedexWithin depth slot = .ok (some ⟨slot, body, arg⟩)) ∨
    (∀ body, h.get fn ≠ .ok (.lam body)) ∧ ∃ below, rest.length ≤ below ∧
      h.headRedexWithin depth slot = h.headRedexWithin below fn := by
  obtain ⟨depth, rfl⟩ := Nat.exists_eq_succ_of_ne_zero (Nat.ne_zero_of_lt hd)
  have hd := Nat.le_of_succ_le_succ hd
  obtain ⟨depth, rfl⟩ := Nat.exists_eq_succ_of_ne_zero (sp.length_pos.trans_le hd).ne'
  by_cases hl : ∃ body, h.get fn = .ok (.lam body)
  · obtain ⟨body, hl⟩ := hl
    exact .inl ⟨body, hl, headRedexWithin_lam hg hl _⟩
  · have hn := fun body e => hl ⟨body, e⟩
    exact .inr ⟨hn, _, hd, headRedexWithin_fn hg hn _⟩

/-- The search ends with a redex exactly if it is on the spine and all above it apply
applications. -/
lemma headRedexWithin_some_iff (sp : h.Spine slot spine) (hd : spine.length ≤ depth) :
    h.headRedexWithin depth slot = .ok (some redex) ↔
      h.Applies redex ∧ h.AppliedDownTo spine redex.slot := by
  induction sp generalizing depth with
  | @last slot hn =>
    rw [headRedexWithin_last hn hd, appliedDownTo_cons_iff]
    constructor
    · intro e
      split at e <;> cases e
    · rintro ⟨⟨fn, hg, -⟩, e | ⟨-, down⟩⟩
      · exact absurd (e ▸ hg) (hn fn redex.arg)
      · exact absurd down not_appliedDownTo_nil
  | @app slot fn arg rest hg sp ih =>
    rw [appliedDownTo_cons_iff]
    obtain ⟨body, hl, er⟩ | ⟨hn, below, hd, er⟩ := sp.headRedexWithin_cases hg hd
    · rw [er]
      constructor
      · intro e
        cases e
        exact ⟨⟨fn, hg, hl⟩, .inl rfl⟩
      · rintro ⟨⟨fn', hg', hl'⟩, e | ⟨⟨fn', arg', _, _, hg', hf'⟩, -⟩⟩
        · rw [e] at hg'
          cases hg.symm.trans hg'
          cases hl.symm.trans hl'
          rw [← e]
        · cases hg.symm.trans hg'
          cases hl.symm.trans hf'
    · rw [er, ih hd]
      refine and_congr_right fun ap => ⟨fun down => .inr ⟨?_, down⟩, ?_⟩
      · obtain ⟨fn', arg', hf⟩ := sp.get_app_of_down ap down
        exact ⟨fn, arg, fn', arg', hg, hf⟩
      · rintro (e | ⟨-, down⟩)
        · obtain ⟨fn', hg', hl'⟩ := ap
          rw [e] at hg'
          cases hg.symm.trans hg'
          exact absurd hl' (hn redex.body)
        · exact down

/-- The search ends without one exactly if the spine is an index or an abstraction, or an index is
applied on it. -/
lemma headRedexWithin_none_iff (sp : h.Spine slot spine) (hd : spine.length ≤ depth) :
    h.headRedexWithin depth slot = .ok none ↔
      (∃ i, h.get slot = .ok (.idx i)) ∨ (∃ body, h.get slot = .ok (.lam body)) ∨
        ∃ x ∈ spine, h.AppliesIndex x := by
  induction sp generalizing depth with
  | @last slot hn =>
    have none_applied : ¬ ∃ x ∈ [slot], h.AppliesIndex x := by
      rintro ⟨x, hx, fn, arg, i, hg, -⟩
      exact hn fn arg (List.mem_singleton.1 hx ▸ hg)
    rw [headRedexWithin_last hn hd, or_iff_left none_applied, spineFault?]
    cases hg : h.get slot with
    | error fault => simp
    | ok node =>
      cases node with
      | app fn arg => exact absurd hg (hn fn arg)
      | _ => simp
  | @app slot fn arg rest hg sp ih =>
    obtain ⟨body, hl, er⟩ | ⟨hn, below, hd, er⟩ := sp.headRedexWithin_cases hg hd
    · rw [er, sp.eq_singleton fun _ _ hg => by cases hl.symm.trans hg]
      simp [AppliesIndex, hg, hl]
    · rw [er, ih hd]
      simp [AppliesIndex, hg, hn]

/-- The search fails exactly if a slot of the spine is out of range or has names, with the fault of
the first one. -/
lemma headRedexWithin_error_iff (sp : h.Spine slot spine) (hd : spine.length ≤ depth) :
    h.headRedexWithin depth slot = .error fault ↔ spine.findSome? h.spineFault? = some fault := by
  induction sp generalizing depth with
  | @last slot hn =>
    rw [headRedexWithin_last hn hd, List.findSome?_singleton]
    cases h.spineFault? slot with
    | none => simp
    | some fault' => simp
  | @app slot fn arg rest hg sp ih =>
    rw [List.findSome?_cons, spineFault?_app hg]
    obtain ⟨body, hl, er⟩ | ⟨-, below, hd, er⟩ := sp.headRedexWithin_cases hg hd
    · rw [er, sp.eq_singleton fun _ _ hg => by cases hl.symm.trans hg]
      simp [spineFault?, hl]
    · rw [er, ih hd]

lemma headRedexWithin_congr {depth'} (sp : h.Spine slot spine)
    (same : ∀ x ∈ spine, h'.get x = h.get x) (hd : spine.length ≤ depth)
    (hd' : spine.length ≤ depth') :
    h'.headRedexWithin depth' slot = h.headRedexWithin depth slot := by
  induction sp generalizing depth depth' with
  | @last slot hn =>
    have eg := same slot List.mem_cons_self
    rw [headRedexWithin_last hn hd, headRedexWithin_last (eg ▸ hn) hd', spineFault?, spineFault?,
      eg]
  | @app slot fn arg rest hg sp ih =>
    have hg' := (same slot List.mem_cons_self).trans hg
    have same := fun x hx => same x (List.mem_cons_of_mem slot hx)
    have sp' := sp.congr fun x hx => getElem?_eq_of_get_eq (same x hx)
    have ef := same fn sp.root_mem
    obtain ⟨body, hl, er⟩ | ⟨hn, below, hd, er⟩ := sp.headRedexWithin_cases hg hd
    · obtain ⟨body', hl', er'⟩ | ⟨hn', -⟩ := sp'.headRedexWithin_cases hg' hd'
      · cases hl.symm.trans (ef.symm.trans hl')
        rw [er, er']
      · exact absurd (ef.trans hl) (hn' body)
    · obtain ⟨body', hl', -⟩ | ⟨-, below', hd', er'⟩ := sp'.headRedexWithin_cases hg' hd'
      · exact absurd (ef.symm.trans hl') (hn body')
      · rw [er, er', ih same hd hd']

/-- There is no answer where a slot of the spine is out of range. -/
lemma toOption_eq_none (sp : h.Spine root spine) {x} (hx : x ∈ spine) (hn : h.nodes[x]? = none) :
    (h.headRedex root).toOption = none := by
  have faulty : (spine.findSome? h.spineFault?).isSome := by
    rw [List.findSome?_isSome_iff]
    refine ⟨x, hx, ?_⟩
    rw [spineFault?, get, hn]
    rfl
  obtain ⟨fault, e⟩ := Option.isSome_iff_exists.1 faulty
  rw [headRedex, (sp.headRedexWithin_error_iff sp.length_le).2 e]
  rfl

end Spine

/-- A search that ends has followed a spine to its end. -/
lemma exists_spine_of_ends (en : Ends (h.headRedexWithin depth slot)) :
    ∃ spine, h.Spine slot spine := by
  induction depth generalizing slot with
  | zero => exact absurd rfl (en slot)
  | succ depth ih =>
    by_cases ha : ∃ fn arg, h.get slot = .ok (.app fn arg)
    · obtain ⟨fn, arg, hg⟩ := ha
      by_cases hf : ∃ fn' arg', h.get fn = .ok (.app fn' arg')
      · obtain ⟨fn', arg', hf⟩ := hf
        rw [headRedexWithin_app hg hf nofun] at en
        obtain ⟨rest, sp⟩ := ih en
        exact ⟨_, .app hg sp⟩
      · exact ⟨_, .app hg (.last fun fn' arg' e => hf ⟨fn', arg', e⟩)⟩
    · exact ⟨_, .last fun fn arg e => ha ⟨fn, arg, e⟩⟩

lemma Spine.ends (sp : h.Spine slot spine) (hd : spine.length ≤ depth) :
    Ends (h.headRedexWithin depth slot) := by
  intro x e
  obtain ⟨y, -, ey⟩ := List.exists_of_findSome?_eq_some ((sp.headRedexWithin_error_iff hd).1 e)
  unfold spineFault? at ey
  cases hg : h.get y with
  | error fault =>
    rw [hg] at ey
    cases ey
    exact ends_get h y x hg
  | ok node => cases node <;> simp [hg] at ey

/-- The search ends exactly from the slots that have a spine. -/
theorem ends_headRedex_iff : Ends (h.headRedex root) ↔ ∃ spine, h.Spine root spine :=
  ⟨exists_spine_of_ends, fun ⟨_, sp⟩ => sp.ends sp.length_le⟩

/-- The nodes of the spine decide the search for a redex. It finds the application of an abstraction
above which all applications have an application as their function; it finds none where the root is
an index or an abstraction, or where the spine ends with an applied index; otherwise it fails at the
first slot of the spine that is out of range or has names. Heaps with the same nodes on the spine
give the same answer, and a slot that is out of range in both of different size gives a fault in
both. -/
theorem headRedex_by_spine (sp : h.Spine root spine) :
    (∀ redex, h.headRedex root = .ok (some redex) ↔
      h.Applies redex ∧ ∃ above below, spine = above ++ redex.slot :: below ∧
        ∀ x ∈ above, h.AppliesApp x) ∧
    (h.headRedex root = .ok none ↔
      (∃ i, h.get root = .ok (.idx i)) ∨ (∃ body, h.get root = .ok (.lam body)) ∨
        ∃ above x fn arg i, spine = above ++ [x, fn] ∧ h.get x = .ok (.app fn arg) ∧
          h.get fn = .ok (.idx i)) ∧
    (∀ fault, h.headRedex root = .error fault ↔ spine.findSome? h.spineFault? = some fault) ∧
    (∀ h' : Heap, (∀ x ∈ spine, h'.get x = h.get x) → h'.headRedex root = h.headRedex root) ∧
    ∀ h' : Heap, (∀ x ∈ spine, h'.nodes[x]? = h.nodes[x]?) →
      (h'.headRedex root).toOption = (h.headRedex root).toOption := by
  have hd := sp.length_le
  have congr : ∀ h' : Heap, (∀ x ∈ spine, h'.get x = h.get x) →
      h'.headRedex root = h.headRedex root := by
    intro h' same
    have sp' := sp.congr fun x hx => getElem?_eq_of_get_eq (same x hx)
    exact sp.headRedexWithin_congr same hd sp'.length_le
  refine ⟨fun redex => sp.headRedexWithin_some_iff hd, ?_,
    fun fault => sp.headRedexWithin_error_iff hd, congr, fun h' same => ?_⟩
  · rw [headRedex, sp.headRedexWithin_none_iff hd]
    refine or_congr_right (or_congr_right ⟨?_, ?_⟩)
    · rintro ⟨x, hx, fn, arg, i, hg, hf⟩
      obtain ⟨above, e⟩ := sp.eq_append hx hg fun _ _ e => by cases hf.symm.trans e
      exact ⟨above, x, fn, arg, i, e, hg, hf⟩
    · rintro ⟨above, x, fn, arg, i, e, hg, hf⟩
      exact ⟨x, e ▸ List.mem_append_right above List.mem_cons_self, fn, arg, i, hg, hf⟩
  · by_cases there : ∀ x ∈ spine, ∃ node, h.nodes[x]? = some node
    · rw [congr h' fun x hx => ?_]
      obtain ⟨node, e⟩ := there x hx
      rw [get_eq_ok_iff.2 e, get_eq_ok_iff.2 ((same x hx).trans e)]
    · push Not at there
      obtain ⟨x, hx, missing⟩ := there
      have e : h.nodes[x]? = none := Option.eq_none_iff_forall_ne_some.2 missing
      rw [sp.toOption_eq_none hx e, (sp.congr same).toOption_eq_none hx ((same x hx).trans e)]

/-- The redex `((λ 0) 7)`, applied to an argument that is out of range, among a node with a name, a
node that is its own function and a node with parts out of range. -/
def redexAmongOthers : Heap :=
  ⟨#[.idx 0, .lam 0, .idx 7, .app 1 2, .var "x", .app 5 5, .app 8 9, .app 3 99]⟩

/-- From slot 7 the spine leads over the redex in slot 3 to the abstraction in slot 1. -/
theorem headRedex_by_spine_among_others :
    redexAmongOthers.headRedex 7 = .ok (some ⟨3, 0, 2⟩) ∧ redexAmongOthers.headRedex 7 ≠ .ok none ∧
      ∀ h' : Heap, (∀ x ∈ [7, 3, 1], h'.get x = redexAmongOthers.get x) →
        h'.headRedex 7 = .ok (some ⟨3, 0, 2⟩) := by
  have sp : redexAmongOthers.Spine 7 [7, 3, 1] :=
    .app rfl (.app rfl (.last fun fn arg e => by cases e))
  obtain ⟨found, -, -, same, -⟩ := headRedex_by_spine sp
  have e : redexAmongOthers.headRedex 7 = .ok (some ⟨3, 0, 2⟩) := by
    refine (found _).2 ⟨⟨1, rfl, rfl⟩, [7], [1], rfl, fun x hx => ?_⟩
    cases List.mem_singleton.1 hx
    exact ⟨3, 99, 1, 2, rfl, rfl⟩
  exact ⟨e, e ▸ nofun, fun h' eq => (same h' eq).trans e⟩

end WeakHead.Heap

import WeakHead.Proofs.Heap.Grafting

/-!
# What a shift does to each index

A path to an index crosses the binders that the index is under (`bindersOn`). By their number it is
decided whether a shift changes the index, and whether it can: so what `Shiftable` and `shiftBy` say
of a term is said here of the slots of its tree, one by one.

Main statement: `shift_exact`.
-/

namespace WeakHead.Heap

variable {h h' : Heap} {slot x : Slot} {t : IndexTerm} {node : Node} {cutoff : Nat} {amount : Int}

/-- The number of binders that a path crosses. -/
def bindersOn (h : Heap) (slot : Slot) : List Nat → Nat
  | [] => 0
  | part :: path =>
    match h.nodes[slot]? with
    | some node =>
      match node.parts[part]? with
      | some next => (if node.binds then 1 else 0) + h.bindersOn next path
      | none => 0
    | none => 0

lemma bindersOn_cons {part p} {i : Nat} (hg : h.get slot = .ok node)
    (hp : node.parts[i]? = some part) :
    h.bindersOn slot (i :: p) = (if node.binds then 1 else 0) + h.bindersOn part p := by
  simp only [bindersOn, get_eq_ok_iff.1 hg, hp]

/-! ### Paths through a term -/

section

variable {index : Nat} {body fn arg : Slot}

/-- What is said of all paths is said of the path that ends at once, and of those through parts. -/
lemma forall_follow_idx (hg : h.get slot = .ok (.idx index)) {P : Nat → Slot → Prop} :
    (∀ path x, h.follow slot path = some x → P (h.bindersOn slot path) x) ↔ P 0 slot := by
  refine ⟨fun all => all [] slot (follow_nil hg), fun here path x e => ?_⟩
  rcases follow_eq_some hg e with ⟨rfl, rfl⟩ | ⟨i, part, q, rfl, hp, -⟩
  · exact here
  · cases hp

lemma forall_follow_lam (hg : h.get slot = .ok (.lam body)) {P : Nat → Slot → Prop} :
    (∀ path x, h.follow slot path = some x → P (h.bindersOn slot path) x) ↔
      P 0 slot ∧ ∀ path x, h.follow body path = some x → P (1 + h.bindersOn body path) x := by
  constructor
  · refine fun all => ⟨all [] slot (follow_nil hg), fun path x e => ?_⟩
    have p := all (0 :: path) x (by rw [follow_cons hg]; exact e)
    rwa [bindersOn_cons hg (i := 0) rfl] at p
  · rintro ⟨here, down⟩ path x e
    rcases follow_eq_some hg e with ⟨rfl, rfl⟩ | ⟨i, part, q, rfl, hp, e⟩
    · exact here
    · rw [bindersOn_cons hg hp]
      cases List.mem_singleton.1 (List.mem_of_getElem? hp)
      exact down q x e

/-- The paths from an application are the empty one and those through either part. -/
lemma forall_follow_app (hg : h.get slot = .ok (.app fn arg)) {P : Nat → Slot → Prop} :
    (∀ path x, h.follow slot path = some x → P (h.bindersOn slot path) x) ↔
      P 0 slot ∧ (∀ path x, h.follow fn path = some x → P (h.bindersOn fn path) x) ∧
        ∀ path x, h.follow arg path = some x → P (h.bindersOn arg path) x := by
  have part_eq : ∀ {i : Nat} {part p}, (Node.app fn arg).parts[i]? = some part →
      h.bindersOn slot (i :: p) = h.bindersOn part p := fun hp => by
    rw [bindersOn_cons hg hp]
    exact Nat.zero_add _
  constructor
  · refine fun all => ⟨all [] slot (follow_nil hg), fun path x e => ?_, fun path x e => ?_⟩
    · have p := all (0 :: path) x (by rw [follow_cons hg]; exact e)
      rwa [part_eq (i := 0) rfl] at p
    · have p := all (1 :: path) x (by rw [follow_cons hg]; exact e)
      rwa [part_eq (i := 1) rfl] at p
  · rintro ⟨here, downF, downA⟩ path x e
    rcases follow_eq_some hg e with ⟨rfl, rfl⟩ | ⟨i, part, q, rfl, hp, e⟩
    · exact here
    · rw [part_eq hp]
      cases List.mem_pair.1 (List.mem_of_getElem? hp) with
      | inl ep => exact ep ▸ downF q x (ep ▸ e)
      | inr ep => exact ep ▸ downA q x (ep ▸ e)

end

/-! ### Shifts -/

/-- The counter of binders, at a slot under `n` of them, is an index, and so is what the shift makes
of an index there that is not bound. -/
def ShiftableAt (h : Heap) (cutoff : Nat) (amount : Int) (n : Nat) (x : Slot) : Prop :=
  cutoff + n < indexBound ∧ ∀ k : Nat, h.get x = .ok (.idx k) → cutoff + n ≤ k →
    0 ≤ k + amount ∧ k + amount < indexBound

lemma shiftableAt_of_ne_idx {n} (hc : cutoff + n < indexBound) (hg : h.get x = .ok node)
    (hn : ∀ i, node ≠ .idx i) : h.ShiftableAt cutoff amount n x :=
  ⟨hc, fun k hk => absurd (Except.ok.inj (hg.symm.trans hk)) (hn k)⟩

lemma shiftableAt_succ {n} :
    h.ShiftableAt cutoff amount (1 + n) x ↔ h.ShiftableAt (cutoff + 1) amount n x := by
  rw [ShiftableAt, ShiftableAt, Nat.add_assoc]

/-- A term is shiftable if each slot of it is. -/
lemma Unfolds.shiftable_iff (un : h.Unfolds slot t) (hc : cutoff < indexBound) :
    t.Shiftable amount cutoff ↔
      ∀ path x, h.follow slot path = some x →
        h.ShiftableAt cutoff amount (h.bindersOn slot path) x := by
  induction un generalizing cutoff with
  | @idx slot index hg =>
    rw [forall_follow_idx hg]
    constructor
    · refine fun fit => ⟨hc, fun k hk le => ?_⟩
      cases hg.symm.trans hk
      exact fit le
    · exact fun fit le => fit.2 index hg le
  | lam hg unb ih =>
    rw [forall_follow_lam hg, IndexTerm.Shiftable]
    simp only [shiftableAt_succ]
    constructor
    · rintro ⟨hc', fit⟩
      exact ⟨shiftableAt_of_ne_idx hc hg (by simp), (ih hc').1 fit⟩
    · rintro ⟨-, down⟩
      obtain ⟨node, hg'⟩ := unb.exists_node
      have hc' := (down [] _ (follow_nil hg')).1
      exact ⟨hc', (ih hc').2 down⟩
  | app hg _ _ ihf iha =>
    rw [forall_follow_app hg, and_iff_right (shiftableAt_of_ne_idx hc hg (by simp)),
      IndexTerm.Shiftable]
    exact and_congr (ihf hc) (iha hc)

/-- An index under `n` binders has been moved if it counts past the cutoff and them. -/
def ShiftedAt (h h' : Heap) (cutoff : Nat) (amount : Int) (n : Nat) (x : Slot) : Prop :=
  ∀ k : Nat, h.get x = .ok (.idx k) →
    h'.get x = .ok (.idx (if cutoff + n ≤ k then (k + amount).toNat else k))

lemma shiftedAt_of_ne_idx {n} (hg : h.get x = .ok node) (hn : ∀ i, node ≠ .idx i) :
    h.ShiftedAt h' cutoff amount n x :=
  fun k hk => absurd (Except.ok.inj (hg.symm.trans hk)) (hn k)

/-- Where the shifted term stands, each index of the term has been moved or not. -/
lemma Unfolds.shiftedAt (un : h.Unfolds slot t) (re : Reindexed h h')
    (un' : h'.Unfolds slot (t.shiftBy amount cutoff)) :
    ∀ path x, h.follow slot path = some x →
      h.ShiftedAt h' cutoff amount (h.bindersOn slot path) x := by
  induction un generalizing cutoff with
  | idx hg =>
    refine (forall_follow_idx hg).2 fun k hk => ?_
    cases hg.symm.trans hk
    cases un' with
    | idx hg' => exact hg'
  | lam hg _ ih =>
    refine (forall_follow_lam hg).2 ⟨shiftedAt_of_ne_idx hg nofun, fun path x e k hk => ?_⟩
    cases un' with
    | lam hg' unb' =>
      cases hg'.symm.trans (re.get_lam hg)
      rw [← Nat.add_assoc]
      exact ih unb' path x e k hk
  | app hg _ _ ihf iha =>
    cases un' with
    | app hg' unf' una' =>
      cases hg'.symm.trans (re.get_app hg)
      exact (forall_follow_app hg).2 ⟨shiftedAt_of_ne_idx hg nofun, ihf unf', iha una'⟩

/-- On a tree, a shift is exact. It succeeds exactly if all counters of binders stay indices and all
indices past them do when they are moved. Then these indices are moved and no other is, and the
paths, the nodes of other kinds, the size of the heap and all slots outside the tree are as they
were. -/
theorem shift_exact (un : h.Unfolds slot t) (sp : h.SpansTree slot) (hc : cutoff < indexBound) :
    ((∃ h', h.shift slot cutoff amount = .ok h') ↔
      (∀ path x, h.follow slot path = some x → cutoff + h.bindersOn slot path < indexBound) ∧
      ∀ path x (k : Nat), h.follow slot path = some x → h.get x = .ok (.idx k) →
        cutoff + h.bindersOn slot path ≤ k → 0 ≤ k + amount ∧ k + amount < indexBound) ∧
    ∀ h', h.shift slot cutoff amount = .ok h' →
      (∀ path x (k : Nat), h.follow slot path = some x → h.get x = .ok (.idx k) →
        (cutoff + h.bindersOn slot path ≤ k →
          ∃ moved : Nat, moved = k + amount ∧ h'.get x = .ok (.idx moved)) ∧
        (k < cutoff + h.bindersOn slot path → h'.get x = .ok (.idx k))) ∧
      (∀ path, h'.follow slot path = h.follow slot path) ∧
      (∀ x node, h.get x = .ok node → (∀ i, node ≠ .idx i) → h'.get x = .ok node) ∧
      h'.size = h.size ∧
      ∀ x, ¬ h.Reaches slot x → h'.get x = h.get x := by
  obtain ⟨S, tr⟩ := un.treeAt sp
  have fits : (∃ h', h.shift slot cutoff amount = .ok h') ↔ _ :=
    tr.exists_shift_iff.trans (un.shiftable_iff hc)
  refine ⟨fits.trans ⟨fun all => ?_, fun ⟨counters, indices⟩ path x e => ?_⟩, fun h' e => ?_⟩
  · exact ⟨fun path x e => (all path x e).1, fun path x k e hk => (all path x e).2 k hk⟩
  · exact ⟨counters path x e, fun k hk => indices path x k e hk⟩
  · have all := fits.1 ⟨h', e⟩
    have re := reindexed_of_shift e
    have sh := tr.shifted e
    refine ⟨fun path x k ep hk => ?_, re.follow_eq slot, fun x node hg hn => ?_, re.size_eq,
      fun x hn => ?_⟩
    · have hg' := un.shiftedAt re sh.tree.unfolds path x ep k hk
      constructor
      · intro le
        rw [if_pos le] at hg'
        exact ⟨_, Int.toNat_of_nonneg ((all path x ep).2 k hk le).1, hg'⟩
      · intro lt
        rwa [if_neg (Nat.not_le.2 lt)] at hg'
    · exact (re.get hg).resolve_right fun ⟨i, _, e, _⟩ => hn i e
    · exact sh.keeps.get_eq_of_size_eq sh.size_eq fun hm => hn (tr.mem_iff_reaches.1 hm)

/-- The term `(λ ((0 1) 5))`, with a node before it that nothing refers to. -/
def boundAndFree : Heap :=
  ⟨#[.idx 9, .idx 0, .idx 1, .app 1 2, .idx 5, .app 3 4, .lam 5]⟩

lemma boundAndFree_postAt :
    boundAndFree.PostAt 1 (.lam (.app (.app (.idx 0) (.idx 1)) (.idx 5))) 6 :=
  .lam (.app (.app (.idx rfl) (.idx rfl) rfl) (.idx rfl) rfl) rfl

/-- Under its binder, 1 and 5 are free: they can be lowered by one, but not by two, and raised as
far as 5 stays in range. -/
theorem shift_exact_under_binder :
    (∃ h', boundAndFree.shift 6 0 (-1) = .ok h' ∧ h'.get 1 = .ok (.idx 0) ∧
      h'.get 2 = .ok (.idx 0) ∧ h'.get 4 = .ok (.idx 4) ∧ h'.get 0 = .ok (.idx 9)) ∧
    (¬ ∃ h', boundAndFree.shift 6 0 (-2) = .ok h') ∧
    (¬ ∃ h', boundAndFree.shift 6 0 (indexBound - 5) = .ok h') := by
  have post := boundAndFree_postAt
  have holds := fun amount =>
    @shift_exact boundAndFree 6 _ 0 amount post.tree.unfolds post.tree.spansTree (by decide)
  refine ⟨?_, fun ex => ?_, fun ex => ?_⟩
  · have run : (boundAndFree.shift 6 0 (-1)).map size = .ok 7 := by decide +kernel
    obtain ⟨h', e, -⟩ := map_eq_ok_iff.1 run
    obtain ⟨indices, -, -, -, outside⟩ := (holds (-1)).2 h' e
    obtain ⟨i, ei, hi⟩ := (indices [0, 0, 1] 2 1 rfl rfl).1 (Nat.le_refl 1)
    obtain ⟨j, ej, hj⟩ := (indices [0, 1] 4 5 rfl rfl).1 (by decide)
    obtain rfl : i = 0 := by omega
    obtain rfl : j = 4 := by omega
    refine ⟨h', e, (indices [0, 0, 0] 1 0 rfl rfl).2 Nat.one_pos, hi, hj, ?_⟩
    refine (outside 0 fun hr => ?_).trans rfl
    exact absurd (Finset.mem_Ico.1 (post.tree.mem_iff_reaches.2 hr)).1 (Nat.not_lt_zero 0)
  · have range := ((holds (-2)).1.1 ex).2 [0, 0, 1] 2 1 rfl rfl (Nat.le_refl 1)
    omega
  · have range := ((holds _).1.1 ex).2 [0, 1] 4 5 rfl rfl (by decide)
    omega

end WeakHead.Heap

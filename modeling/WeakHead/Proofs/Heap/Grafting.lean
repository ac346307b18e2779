import WeakHead.Proofs.Heap.Alike.Substitution

/-!
# Passes over any nodes

A shift and a substitution write where a variable stands, and nowhere else. So what each of these
writes keeps, the whole pass keeps, provided that the way down does not leave the slots that it is
known to stay among (`shiftWithin_keeps`, `substitute_keeps`). Nothing is said about the shape of
the heap: nodes may be of any kind, shared, or dangle.

A copy is a tree of new nodes even then. `NewTrees` says what the heap has got, and `Grafts` what
there is after a variable has been replaced by a copy.
-/

namespace WeakHead.Heap

variable {h h' h₁ h₂ : Heap} {slot x replacement copied : Slot} {node : Node} {depth : Nat}

/-! ### Ways among some of the slots -/

/-- A way down stays among slots that have their parts among themselves. -/
lemma mem_of_follow {C : Slot → Prop}
    (closed : ∀ ⦃x node⦄, C x → h.get x = .ok node → ∀ part ∈ node.parts, C part) (hs : C slot) {p}
    (e : h.follow slot p = some x) : C x := by
  induction p generalizing slot with
  | nil =>
    obtain ⟨node, hg⟩ := exists_get_of_follow e
    rw [follow_nil hg] at e
    cases e
    exact hs
  | cons i p ih =>
    obtain ⟨node, hg⟩ := exists_get_of_follow e
    rw [follow_cons hg, Option.bind_eq_some_iff] at e
    obtain ⟨part, hp, e⟩ := e
    exact ih (closed hs hg part (List.mem_of_getElem? hp)) e

lemma follow_of_error {fault} (hg : h.get slot = .error fault) (p) : h.follow slot p = none := by
  cases e : h.follow slot p with
  | none => rfl
  | some x =>
    obtain ⟨node, hg'⟩ := exists_get_of_follow e
    cases hg.symm.trans hg'

/-- Where the same nodes stand, the same ways lead on. -/
lemma follow_congr {C : Slot → Prop}
    (closed : ∀ ⦃x node⦄, C x → h.get x = .ok node → ∀ part ∈ node.parts, C part)
    (eq : ∀ x, C x → h'.get x = h.get x) (hs : C slot) (p) :
    h'.follow slot p = h.follow slot p := by
  induction p generalizing slot with
  | nil =>
    cases hg : h.get slot with
    | error fault => rw [follow_of_error hg, follow_of_error ((eq slot hs).trans hg)]
    | ok node => rw [follow_nil hg, follow_nil ((eq slot hs).trans hg)]
  | cons i p ih =>
    cases hg : h.get slot with
    | error fault => rw [follow_of_error hg, follow_of_error ((eq slot hs).trans hg)]
    | ok node =>
      rw [follow_cons hg, follow_cons ((eq slot hs).trans hg)]
      cases hp : node.parts[i]? with
      | none => rfl
      | some part => exact ih (closed hs hg part (List.mem_of_getElem? hp))

lemma SpansTree.congr (sp : h.SpansTree slot)
    (eq : ∀ p, h'.follow slot p = h.follow slot p) : h'.SpansTree slot := by
  intro p q x ep eq'
  rw [eq] at ep eq'
  exact sp p q x ep eq'

/-- From a slot outside the heap no path leads anywhere. -/
lemma spansTree_of_le (le : h.size ≤ slot) : h.SpansTree slot := by
  intro p q x ep _
  rw [follow_of_error (get_eq_error_of_le le)] at ep
  cases ep

/-- Indices do not tell where paths lead. -/
lemma Reindexed.follow_eq (re : Reindexed h h') (slot p) : h'.follow slot p = h.follow slot p := by
  cases e : h.follow slot p with
  | some x => exact re.develops.follow e
  | none =>
    cases e' : h'.follow slot p with
    | none => rfl
    | some x => rw [re.symm.develops.follow e'] at e; cases e

/-! ### What a pass keeps -/

section Keep

variable {P : Heap → Prop} {I : Slot → Prop}
  (down : ∀ ⦃h x node⦄, P h → I x → h.get x = .ok node → ∀ part ∈ node.parts, I part)
  (replace : ∀ ⦃h h' x i⦄ crossed, P h → I x → h.get x = .ok (.idx i) →
    h.replaceByCopy x replacement crossed = .ok h' → P h')

include down replace

lemma substituteAt_keeps {descend : Heap → Slot → Nat → Nat → Except Fault Heap}
    (descend_keeps : ∀ ⦃h h' x⦄ level crossed, P h → I x →
      descend h x level crossed = .ok h' → P h')
    (hP : P h) (hI : I slot) {level crossed}
    (e : substituteAt replacement descend h slot level crossed = .ok h') : P h' := by
  cases hg : h.get slot with
  | error fault =>
    rw [substituteAt, hg] at e
    cases e
  | ok node =>
    have inner := down hP hI hg
    cases node with
    | idx index =>
      rw [substituteAt_idx hg] at e
      split at e
      · exact replace crossed hP hI hg e
      · cases e
        exact hP
    | lam body =>
      rw [substituteAt_lam hg] at e
      obtain ⟨level', -, e⟩ := bind_eq_ok_iff.1 e
      exact descend_keeps level' _ hP (inner body List.mem_cons_self) e
    | app fn arg =>
      rw [substituteAt_app hg] at e
      obtain ⟨h₁, e₁, e₂⟩ := bind_eq_ok_iff.1 e
      exact descend_keeps level crossed
        (descend_keeps level crossed hP (inner fn List.mem_cons_self) e₁)
        (inner arg (List.mem_cons_of_mem _ List.mem_cons_self)) e₂
    | var name =>
      rw [substituteAt, hg] at e
      cases e
    | abs binder body =>
      rw [substituteAt, hg] at e
      cases e

/-- The walk of a substitution keeps what its writes keep. -/
lemma substituteWithin_keeps (hP : P h) (hI : I slot) {level crossed}
    (e : substituteWithin replacement depth h slot level crossed = .ok h') : P h' := by
  induction depth generalizing h h' slot level crossed with
  | zero => cases e
  | succ depth ih =>
    rw [substituteWithin_succ] at e
    exact substituteAt_keeps down replace (fun _ _ _ _ _ hP hI e => ih hP hI e) hP hI e

/-- The walk among old slots keeps what its writes keep. -/
lemma substituteAmongOld_keeps {old} (hP : P h) (hI : I slot) {level crossed}
    (e : substituteAmongOld replacement old depth h slot level crossed = .ok h') : P h' := by
  induction depth generalizing h h' slot level crossed with
  | zero => cases e
  | succ depth ih =>
    by_cases hlt : slot < old
    · rw [substituteAmongOld_of_lt hlt] at e
      exact substituteAt_keeps down replace (fun _ _ _ _ _ hP hI e => ih hP hI e) hP hI e
    · rw [substituteAmongOld_of_not_lt hlt] at e
      exact substituteWithin_keeps down replace hP hI e

/-- A substitution keeps what is kept whenever a variable is replaced by a copy. -/
lemma substitute_keeps (hP : P h) (hI : I slot) {level}
    (e : h.substitute slot replacement level = .ok h') : P h' :=
  substituteAmongOld_keeps down replace hP hI e

end Keep

/-! ### New trees -/

/-- The second heap has the nodes of the first, and each node after them starts a tree of such
nodes, whose parts stand before their wholes. -/
structure NewTrees (h h' : Heap) : Prop where
  keeps : Keeps h h' ∅
  parts : ∀ ⦃x node⦄, h.size ≤ x → h'.get x = .ok node → ∀ part ∈ node.parts,
    h.size ≤ part ∧ part < x
  spans : ∀ x, h.size ≤ x → h'.SpansTree x

namespace NewTrees

lemma refl (h : Heap) : NewTrees h h where
  keeps := .refl h ∅
  parts _ _ le hg := absurd (lt_size_of_get_eq_ok hg) (Nat.not_lt.2 le)
  spans _ le := spansTree_of_le le

/-- Ways through new trees stay there. -/
lemma old_le_of_follow (nt : NewTrees h h') (le : h.size ≤ slot) {p}
    (e : h'.follow slot p = some x) : h.size ≤ x :=
  mem_of_follow (C := (h.size ≤ ·)) (fun _ _ le hg part hm => (nt.parts le hg part hm).1) le e

/-- Later nodes leave the trees as they are. -/
lemma follow_eq (nt : NewTrees h h₁) (kp : Keeps h₁ h₂ ∅) (le : h.size ≤ x) (lt : x < h₁.size) (p) :
    h₂.follow x p = h₁.follow x p := by
  refine follow_congr (C := fun y => h.size ≤ y ∧ y < h₁.size) ?_ ?_ ⟨le, lt⟩ p
  · rintro y node ⟨le, lt⟩ hg part hm
    obtain ⟨le', lt'⟩ := nt.parts le hg part hm
    exact ⟨le', lt'.trans lt⟩
  · exact fun y hy => kp.get_eq hy.2 (Finset.notMem_empty y)

lemma trans (nt : NewTrees h h₁) (nt' : NewTrees h₁ h₂) : NewTrees h h₂ where
  keeps := nt.keeps.trans nt'.keeps (.refl _ _)
  parts x node le hg part hm := by
    by_cases hx : x < h₁.size
    · rw [nt'.keeps.get_eq hx (Finset.notMem_empty x)] at hg
      exact nt.parts le hg part hm
    · obtain ⟨le', lt⟩ := nt'.parts (Nat.le_of_not_lt hx) hg part hm
      exact ⟨nt.keeps.size_le.trans le', lt⟩
  spans x le := by
    by_cases hx : x < h₁.size
    · exact (nt.spans x le).congr (nt.follow_eq nt'.keeps le hx)
    · exact nt'.spans x (Nat.le_of_not_lt hx)

lemma push (nt : NewTrees h h') (new : ∀ part ∈ node.parts, h.size ≤ part ∧ part < h'.size)
    (apart : ∀ (i j : Nat) part part' x, node.parts[i]? = some part → node.parts[j]? = some part' →
      h'.Reaches part x → h'.Reaches part' x → i = j) : NewTrees h (h'.push node) := by
  have kp := keeps_push h' node ∅
  have reaches : ∀ part ∈ node.parts, ∀ y, (h'.push node).Reaches part y → h'.Reaches part y := by
    rintro part hm y ⟨p, e⟩
    rw [nt.follow_eq kp (new part hm).1 (new part hm).2] at e
    exact ⟨p, e⟩
  have mem : ∀ {i : Nat} {part}, node.parts[i]? = some part → part ∈ node.parts :=
    fun hp => List.mem_of_getElem? hp
  refine ⟨nt.keeps.trans kp (.refl _ _), fun x node' le hg part hm => ?_, fun x le => ?_⟩
  · by_cases hx : x < h'.size
    · rw [kp.get_eq hx (Finset.notMem_empty x)] at hg
      exact nt.parts le hg part hm
    · have lt := lt_size_of_get_eq_ok hg
      rw [size_push] at lt
      obtain rfl : x = h'.size := Nat.le_antisymm (Nat.le_of_lt_succ lt) (Nat.le_of_not_lt hx)
      cases hg.symm.trans (get_push_size h' node)
      exact new part hm
  · by_cases hx : x < h'.size
    · exact (nt.spans x le).congr (nt.follow_eq kp le hx)
    · cases (Nat.le_of_not_lt hx).eq_or_lt with
      | inr lt => exact spansTree_of_le (by rw [size_push]; exact lt)
      | inl ex =>
        subst ex
        refine spansTree_of_parts (get_push_size h' node) (fun i part hp => ?_)
          fun i j part part' y hp hp' hr hr' => apart i j part part' y hp hp'
            (reaches part (mem hp) y hr) (reaches part' (mem hp') y hr')
        have ⟨le, lt⟩ := new part (mem hp)
        exact ⟨(nt.spans part le).congr (nt.follow_eq kp le lt),
          fun hr => absurd (reaches part (mem hp) _ hr).lt_size (Nat.lt_irrefl _)⟩

/-- Other indices make no difference to where the trees are. -/
lemma reindexed (nt : NewTrees h h₁) (re : Reindexed h₁ h₂) (kp : Keeps h h₂ ∅) :
    NewTrees h h₂ where
  keeps := kp
  parts x node le hg part hm := by
    obtain ⟨node', hg', same⟩ := re.symm.exists_get hg
    exact nt.parts le hg' part (same.parts_eq ▸ hm)
  spans x le := (nt.spans x le).congr (re.follow_eq x)

/-- A shift of a new tree leaves the old nodes alone. -/
lemma shift (nt : NewTrees h h₁) (le : h.size ≤ slot) {cutoff amount}
    (e : h₁.shift slot cutoff amount = .ok h₂) : NewTrees h h₂ := by
  have re := reindexed_of_shift e
  refine nt.reindexed re ?_
  refine (shiftWithin_keeps (P := fun g => Reindexed h₁ g ∧ Keeps h g ∅) (I := (h.size ≤ ·))
    ?_ ?_ ⟨.refl h₁, nt.keeps⟩ le e).2
  · rintro g x node ⟨re, -⟩ le hg part hm
    obtain ⟨node', hg', same⟩ := re.symm.exists_get hg
    exact (nt.parts le hg' part (same.parts_eq ▸ hm)).1
  · rintro g x i j ⟨re, kp⟩ le hg
    have new : Within {x} ∅ h.size := fun y hm => .inr (Finset.mem_singleton.1 hm ▸ le)
    exact ⟨re.trans (reindexed_put hg j),
      kp.trans (keeps_put g x _ (Finset.mem_singleton_self x)) new⟩

end NewTrees

/-! ### Copies -/

lemma copyWithin_leaf (hg : h.get slot = .ok node) (hp : node.parts = []) (depth) :
    copyWithin (depth + 1) h slot = .ok (h.push node, h.size) := by
  rw [copyWithin, hg]
  cases node with
  | var _ => rfl
  | idx _ => rfl
  | _ => cases hp

lemma copyWithin_one {part} (hg : h.get slot = .ok node) (hp : node.parts = [part]) (depth) :
    copyWithin (depth + 1) h slot =
      (copyWithin depth h part).map fun (h, fresh) =>
        (h.push (node.rename fun _ => fresh), h.size) := by
  rw [copyWithin, hg]
  cases node with
  | abs binder body => cases hp; rfl
  | lam body => cases hp; rfl
  | _ => cases hp

lemma getElem?_parts_app {fn arg part : Slot} {i : Nat}
    (hp : (Node.app fn arg).parts[i]? = some part) : i = 0 ∧ fn = part ∨ i = 1 ∧ arg = part := by
  cases i with
  | zero => exact .inl ⟨rfl, Option.some.inj hp⟩
  | succ i =>
    cases i with
    | zero => exact .inr ⟨rfl, Option.some.inj hp⟩
    | succ i => cases hp

/-- A copy is the last node of new trees. -/
structure Copied (h h' : Heap) (copied : Slot) : Prop where
  trees : NewTrees h h'
  old_le : h.size ≤ copied
  root_eq : copied + 1 = h'.size

lemma Copied.lt_size (cp : Copied h h' copied) : copied < h'.size :=
  Nat.lt_of_succ_le (Nat.le_of_eq cp.root_eq)

/-- Copies of the parts of a node make a copy of the node. -/
lemma NewTrees.copied_push (nt : NewTrees h (h'.push node)) (le : h.size ≤ h'.size) :
    Copied h (h'.push node) h'.size :=
  ⟨nt, le, (size_push h' node).symm⟩

lemma copied_of_copyWithin (e : copyWithin depth h slot = .ok (h', copied)) :
    Copied h h' copied := by
  induction depth generalizing h h' slot copied with
  | zero => cases e
  | succ depth ih =>
    cases hg : h.get slot with
    | error fault =>
      rw [copyWithin, hg] at e
      cases e
    | ok node =>
      rcases node.parts_cases with hp | ⟨part, hp⟩ | ⟨fn, arg, rfl⟩
      · rw [copyWithin_leaf hg hp] at e
        cases e
        refine ((NewTrees.refl h).push ?_ ?_).copied_push (Nat.le_refl _) <;> simp [hp]
      · rw [copyWithin_one hg hp] at e
        obtain ⟨⟨h₁, fresh⟩, e₁, e⟩ := map_eq_ok_iff.1 e
        cases e
        have cp := ih e₁
        have hp : (node.rename fun _ => fresh).parts = [fresh] := by
          rw [Node.parts_rename, hp, List.map_singleton]
        refine (cp.trees.push ?_ fun i j _ _ _ hi hj _ _ => ?_).copied_push cp.trees.keeps.size_le
        · simpa [hp] using ⟨cp.old_le, cp.lt_size⟩
        · have hi := (List.getElem?_eq_some_iff.1 hi).1
          have hj := (List.getElem?_eq_some_iff.1 hj).1
          rw [hp, List.length_singleton, Nat.lt_one_iff] at hi hj
          rw [hi, hj]
      · rw [copyWithin_app hg] at e
        obtain ⟨⟨h₁, freshF⟩, e₁, e⟩ := bind_eq_ok_iff.1 e
        obtain ⟨⟨h₂, freshA⟩, e₂, e⟩ := map_eq_ok_iff.1 e
        cases e
        have cf := ih e₁
        have ca := ih e₂
        -- The copy of the function ends where that of the argument begins.
        have dis : ∀ y, h₂.Reaches freshF y → ¬ h₂.Reaches freshA y := by
          rintro y ⟨p, ep⟩ ⟨q, eq⟩
          rw [cf.trees.follow_eq ca.trees.keeps cf.old_le cf.lt_size] at ep
          exact absurd (lt_size_of_follow ep)
            (Nat.not_lt.2 (ca.trees.old_le_of_follow ca.old_le eq))
        refine ((cf.trees.trans ca.trees).push ?_
          fun i j part part' y hi hj hr hr' => ?_).copied_push
            (cf.trees.keeps.size_le.trans ca.trees.keeps.size_le)
        · have ltF := Nat.lt_of_lt_of_le cf.lt_size ca.trees.keeps.size_le
          have leA := cf.trees.keeps.size_le.trans ca.old_le
          simpa [Node.parts] using ⟨⟨cf.old_le, ltF⟩, leA, ca.lt_size⟩
        · rcases getElem?_parts_app hi with ⟨rfl, rfl⟩ | ⟨rfl, rfl⟩ <;>
            rcases getElem?_parts_app hj with ⟨rfl, rfl⟩ | ⟨rfl, rfl⟩
          · rfl
          · exact absurd hr' (dis y hr)
          · exact absurd hr (dis y hr')
          · rfl

/-! ### Replacements -/

/-- The node in `slot` has been replaced by the start of a new tree. -/
structure Grafts (h h' : Heap) (slot : Slot) : Prop where
  keeps : Keeps h h' {slot}
  root : ∃ node, h'.get slot = .ok node ∧ ∀ part ∈ node.parts, h.size ≤ part ∧ part < h'.size
  parts : ∀ ⦃x node⦄, h.size ≤ x → h'.get x = .ok node → ∀ part ∈ node.parts,
    h.size ≤ part ∧ part < x
  spans : ∀ x, x = slot ∨ h.size ≤ x → h'.SpansTree x

/-- The start of a new tree is put into an old slot. -/
lemma NewTrees.grafts (nt : NewTrees h h₁) (hs : slot < h.size) (le : h.size ≤ copied)
    (hg : h₁.get copied = .ok node) : Grafts h (h₁.put slot node) slot := by
  have kp := keeps_put h₁ slot node (Finset.mem_singleton_self slot)
  have hput := get_put_self node (hs.trans_le nt.keeps.size_le)
  have ne : ∀ y, h.size ≤ y → y ≠ slot := fun y le e => absurd hs (Nat.not_lt.2 (e ▸ le))
  have inner : ∀ part ∈ node.parts, h.size ≤ part ∧ part < h₁.size := fun part hm => by
    obtain ⟨le, lt⟩ := nt.parts le hg part hm
    exact ⟨le, lt.trans (lt_size_of_get_eq_ok hg)⟩
  -- The slot is none of the new ones, so the trees there do not notice the write.
  have eq : ∀ y, h.size ≤ y → ∀ p, (h₁.put slot node).follow y p = h₁.follow y p := fun y le =>
    follow_congr (C := (h.size ≤ ·)) (fun _ _ le hg part hm => (nt.parts le hg part hm).1)
      (fun z le => get_put_of_ne node (ne z le)) le
  refine ⟨(nt.keeps.mono (Finset.empty_subset _)).trans kp (.refl _ _),
    ⟨node, hput, (size_put h₁ slot node).symm ▸ inner⟩, fun y node' le' hg' => ?_, fun y hy => ?_⟩
  · rw [get_put_of_ne node (ne y le')] at hg'
    exact nt.parts le' hg'
  · rcases hy with rfl | le'
    · refine spansTree_of_parts hput (fun i part hp => ?_) fun i j part part' z hp hp' hr hr' => ?_
      · have le' := (inner part (List.mem_of_getElem? hp)).1
        refine ⟨(nt.spans part le').congr (eq part le'), ?_⟩
        rintro ⟨p, e⟩
        rw [eq part le'] at e
        exact ne _ (nt.old_le_of_follow le' e) rfl
      · obtain ⟨p, ep⟩ := hr
        obtain ⟨q, eq'⟩ := hr'
        rw [eq part (inner part (List.mem_of_getElem? hp)).1] at ep
        rw [eq part' (inner part' (List.mem_of_getElem? hp')).1] at eq'
        have e := nt.spans copied le (i :: p) (j :: q) z (by rw [follow_cons hg, hp]; exact ep)
          (by rw [follow_cons hg, hp']; exact eq')
        exact (List.cons.inj e).1
    · exact (nt.spans y le').congr (eq y le')

/-- Replacing a variable by a copy is a graft. -/
lemma grafts_of_replaceByCopy (hs : slot < h.size) {crossed}
    (e : h.replaceByCopy slot replacement crossed = .ok h') : Grafts h h' slot := by
  rw [replaceByCopy_eq, bind_eq_ok_iff] at e
  obtain ⟨⟨h₁, copied⟩, e₁, e⟩ := e
  obtain ⟨h₂, e₂, e₃⟩ := bind_eq_ok_iff.1 e
  obtain ⟨node, hg, -, rfl⟩ := copyOver_eq_ok_iff.1 e₃
  have cp := copied_of_copyWithin e₁
  have nt : NewTrees h h₂ := by
    split at e₂
    · cases e₂
      exact cp.trees
    · exact cp.trees.shift cp.old_le e₂
  exact nt.grafts hs cp.old_le hg

end WeakHead.Heap

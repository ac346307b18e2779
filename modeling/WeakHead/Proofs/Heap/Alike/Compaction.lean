import WeakHead.Proofs.Heap.Shared
import WeakHead.Proofs.Heap.Alike
import WeakHead.Proofs.Heap.Compaction

/-!
# Compaction of what is shared

Where paths meet, a slot that was moved is met again and its new slot is known. So the new slots
relate heaps that look alike at any time. For this no slot may be moved while its own parts are, and
none is where no path comes round to where it was.
-/

namespace WeakHead

namespace Compaction

variable {h : Heap} {slot part : Slot} {node node' : Node} {c c' c'' : Compaction} {depth : Nat}

/-! ### What has been moved -/

/-- A compaction in which the slots moved so far look like their new slots. -/
structure Sound (h : Heap) (c : Compaction) : Prop where
  size_eq : c.newSlots.size = h.size
  alike : Heap.Alike (fun x y => c.newSlot? x = some y) h c.target

/-- A compaction has gone on to a sound one and has moved nothing but what `slot` reaches. -/
structure Carries (h : Heap) (slot : Slot) (c c' : Compaction) : Prop where
  sound : c'.Sound h
  keeps : ∀ x y, c.newSlot? x = some y → c'.newSlot? x = some y
  within : ∀ x, ¬ h.Reaches slot x → c'.newSlot? x = c.newSlot? x

lemma sound_start (h : Heap) : (start h).Sound h := by
  have none : ∀ x y, (start h).newSlot? x ≠ some y := fun x y e => by
    rw [newSlot?_start] at e
    cases e
  exact ⟨Array.size_replicate, fun x y e => absurd e (none x y), fun x y _ e => absurd e (none x y),
    fun x _ y e => absurd e (none x y)⟩

lemma Sound.carries_self (so : c.Sound h) (slot) : Carries h slot c c :=
  ⟨so, fun _ _ => id, fun _ _ => rfl⟩

namespace Carries

lemma trans (ca : Carries h slot c c') (ca' : Carries h slot c' c'') : Carries h slot c c'' :=
  ⟨ca'.sound, fun x y e => ca'.keeps x y (ca.keeps x y e),
    fun x hn => (ca'.within x hn).trans (ca.within x hn)⟩

/-- What a part reaches is reached from the whole. -/
lemma of_part (ca : Carries h part c c') (hg : h.get slot = .ok node) (hm : part ∈ node.parts) :
    Carries h slot c c' := by
  obtain ⟨i, hp⟩ := List.mem_iff_getElem?.1 hm
  exact ⟨ca.sound, ca.keeps, fun x hn => ca.within x fun hr => hn (hr.of_part hg hp)⟩

end Carries

/-- A node that is moved is known in its new slot. -/
lemma newSlot?_move_self (hs : slot < c.newSlots.size) (node) :
    (c.move slot node).1.newSlot? slot = some c.target.size := by
  show ((c.newSlots.setIfInBounds slot _)[slot]?).join = _
  rw [Array.getElem?_setIfInBounds_self_of_lt hs]
  rfl

lemma newSlot?_move_of_ne {x} (ne : x ≠ slot) :
    (c.move slot node).1.newSlot? x = c.newSlot? x := by
  show ((c.newSlots.setIfInBounds slot _)[x]?).join = _
  rw [Array.getElem?_setIfInBounds_ne ne.symm]
  rfl

/-- What is known after a move was known before or is the node moved. -/
lemma newSlot?_move_eq_some {x y} (e : (c.move slot node).1.newSlot? x = some y) :
    (x = slot ∧ y = c.target.size) ∨ c.newSlot? x = some y := by
  by_cases ex : x = slot
  · by_cases hs : slot < c.newSlots.size
    · rw [ex, newSlot?_move_self hs] at e
      exact .inl ⟨ex, (Option.some.inj e).symm⟩
    · -- A slot that the table does not have is not entered.
      rw [newSlot?, Array.getElem?_eq_none] at e
      · cases e
      · exact (Array.size_setIfInBounds ..).trans_le (ex ▸ Nat.le_of_not_lt hs)
  · rw [newSlot?_move_of_ne ex] at e
    exact .inr e

/-- A node may be moved if its parts have been. -/
lemma Sound.move (so : c.Sound h) (hn : c.newSlot? slot = none) (hg : h.get slot = .ok node)
    (na : node.Alike (fun x y => c.newSlot? x = some y) node') :
    Carries h slot c (c.move slot node').1 ∧
      (c.move slot node').1.newSlot? slot = some (c.move slot node').2 := by
  have hs : slot < c.newSlots.size := by rw [so.size_eq]; exact Heap.lt_size_of_get_eq_ok hg
  have self := newSlot?_move_self hs node'
  have keeps : ∀ x y, c.newSlot? x = some y → (c.move slot node').1.newSlot? x = some y :=
    fun x y e => by
      have ne : x ≠ slot := fun ex => by cases hn.symm.trans (ex ▸ e)
      rw [newSlot?_move_of_ne ne, e]
  -- What is moved last is at the end of the new heap, and nothing else is.
  have cases_of : ∀ x y, (c.move slot node').1.newSlot? x = some y →
      (x = slot ∧ y = c.target.size) ∨ (c.newSlot? x = some y ∧ y < c.target.size) := fun x y e =>
    (newSlot?_move_eq_some e).imp_right fun e => ⟨e, (so.alike.lt_size e).2⟩
  refine ⟨⟨⟨?_, fun x y e => ?_, fun x y y' e e' => Option.some.inj (e.symm.trans e'),
    fun x x' y e e' => ?_⟩, keeps, fun x hr => ?_⟩, self⟩
  · exact (Array.size_setIfInBounds ..).trans so.size_eq
  · rcases cases_of x y e with ⟨rfl, rfl⟩ | ⟨e, lt⟩
    · exact ⟨node, node', hg, Heap.get_push_size _ _, na.imp keeps⟩
    · obtain ⟨node₁, node₁', hg₁, hg₁', na₁⟩ := so.alike.exists_nodes e
      exact ⟨node₁, node₁', hg₁, (Heap.get_push_of_lt node' lt).trans hg₁', na₁.imp keeps⟩
  · rcases cases_of x y e with ⟨rfl, ey⟩ | ⟨e, lt⟩ <;>
      rcases cases_of x' y e' with ⟨rfl, ey'⟩ | ⟨e', lt'⟩
    · rfl
    · exact absurd ey (Nat.ne_of_lt lt')
    · exact absurd ey' (Nat.ne_of_lt lt)
    · exact so.alike.left_unique e e'
  · refine newSlot?_move_of_ne fun ex => hr ?_
    subst ex
    exact Heap.reaches_self (Heap.lt_size_of_get_eq_ok hg)

/-- Whatever ends can be carried over, a slot of it that was moved before included. -/
lemma Sound.carry_ok (so : c.Sound h) (en : h.EndsWithin depth slot) :
    ∃ c' fresh, carry h depth c slot = .ok (c', fresh) ∧ Carries h slot c c' ∧
      c'.newSlot? slot = some fresh := by
  induction depth generalizing c slot with
  | zero => exact absurd en id
  | succ depth ih =>
    cases hn : c.newSlot? slot with
    | some fresh => exact ⟨c, fresh, carry_of_moved hn depth, so.carries_self slot, hn⟩
    | none =>
      obtain ⟨node, hg, en'⟩ := id en
      rcases node.parts_cases with hp | ⟨part, hp⟩ | ⟨fn, arg, rfl⟩
      · obtain ⟨ca, e⟩ := so.move hn hg (node.alike_rename (ρ := id) (by simp [hp]))
        exact ⟨_, _, carry_leaf hg hp hn depth, ca, e⟩
      · have hm : part ∈ node.parts := by simp [hp]
        obtain ⟨c₁, fresh, e₁, ca₁, en₁⟩ := ih so (en' part hm)
        -- The part does not reach the slot, so carrying the part has not moved it.
        have hn₁ := (ca₁.within slot (en.not_part_reaches hg hm)).trans hn
        obtain ⟨ca, e⟩ := ca₁.sound.move hn₁ hg
          (node.alike_rename (ρ := fun _ => fresh) (by simpa [hp] using en₁))
        refine ⟨_, _, ?_, (ca₁.of_part hg hm).trans ca, e⟩
        rw [carry_one hg hp hn, e₁]
        rfl
      · have hf : fn ∈ (Node.app fn arg).parts := List.mem_cons_self
        have ha : arg ∈ (Node.app fn arg).parts := List.mem_cons_of_mem _ List.mem_cons_self
        obtain ⟨c₁, fresh, e₁, ca₁, en₁⟩ := ih so (en' fn hf)
        obtain ⟨c₂, fresh', e₂, ca₂, en₂⟩ := ih ca₁.sound (en' arg ha)
        have hn₂ := ((ca₂.within slot (en.not_part_reaches hg ha)).trans
          (ca₁.within slot (en.not_part_reaches hg hf))).trans hn
        obtain ⟨ca, e⟩ := ca₂.sound.move hn₂ hg (.app (ca₂.keeps _ _ en₁) en₂)
        refine ⟨_, _, ?_, ((ca₁.of_part hg hf).trans (ca₂.of_part hg ha)).trans ca, e⟩
        rw [carry_app hg hn, e₁]
        show (carry h depth c₁ arg).map _ = _
        rw [e₂]
        rfl

end Compaction

/-- The live nodes of a graph look like the whole of its compaction. -/
lemma Heap.EndsWithin.compact_alike {g : Graph} {depth} (en : g.heap.EndsWithin depth g.root)
    (hd : depth ≤ g.heap.depthBound) :
    ∃ c R, g.compact = .ok c ∧ Heap.Alike R g.heap c.graph.heap ∧ R g.root c.graph.root := by
  obtain ⟨c, fresh, e, ca, er⟩ := (Compaction.sound_start g.heap).carry_ok (en.mono hd)
  exact ⟨_, _, Graph.compact_of_carry e, ca.sound.alike, er⟩

end WeakHead

import WeakHead.Evaluation
import WeakHead.Proofs.Heap.Alike.Contraction

/-!
# Graphs that correspond

Two graphs correspond if a renaming of slots, one to one on the live ones, takes one to the other.
Then the search for a redex finds the same in both up to the renaming, a step contracts the same or
the same is wrong with it, and what is written of them is the same text.
-/

namespace WeakHead

/-- The redex in a heap whose slots have been renamed. -/
def Redex.rename (ρ : Slot → Slot) (redex : Redex) : Redex :=
  ⟨ρ redex.slot, ρ redex.body, ρ redex.arg⟩

namespace Graph

/-- The renaming takes the live nodes of a graph to those of another, and no one can tell which of
the two is searched, stepped, measured or written. -/
structure CorrespondsBy (ρ : Slot → Slot) (g g' : Graph) : Prop where
  root : ρ g.root = g'.root
  bijOn : Set.BijOn ρ g.live g'.live
  get : ∀ x ∈ g.live, ∃ node, g.heap.get x = .ok node ∧ g'.heap.get (ρ x) = .ok (node.rename ρ)
  headRedex : ∃ found, g.heap.headRedex g.root = .ok found ∧
    g'.heap.headRedex g'.root = .ok (found.map (Redex.rename ρ)) ∧
    ∀ redex ∈ found, redex.slot ∈ g.live
  step : Agree (fun r r' => r'.2 = r.2.map ρ) (g.heap.step g.root) (g'.heap.step g'.root)
  bracketed : ∃ text, g.bracketed = .ok text ∧ g'.bracketed = .ok text
  readback : ∀ free, ∃ text, g.readback free = .ok text ∧ g'.readback free = .ok text
  size : ∃ count, g.size = .ok count ∧ g'.size = .ok count

/-- Some renaming takes the one graph to the other. -/
def Corresponds (g g' : Graph) : Prop :=
  ∃ ρ, CorrespondsBy ρ g g'

/-- The root of a graph stands for a term, and is related to that of the other, in heaps that look
alike. -/
structure AlikeBy (R : Slot → Slot → Prop) (g g' : Graph) : Prop where
  exists_unfolds : ∃ t, g.heap.Unfolds g.root t
  heaps : Heap.Alike R g.heap g'.heap
  roots : R g.root g'.root

/-- The slots are at the end of the same path. -/
def SamePath (g g' : Graph) (x y : Slot) : Prop :=
  ∃ path, g.heap.follow g.root path = some x ∧ g'.heap.follow g'.root path = some y

end Graph

variable {R R' : Slot → Slot → Prop} {ρ : Slot → Slot} {g g' : Graph} {x y : Slot} {t : IndexTerm}

/-! ### From relations to renamings -/

lemma exists_renaming (unique : ∀ x y y', R x y → R x y' → y = y') :
    ∃ ρ : Slot → Slot, ∀ x y, R x y → ρ x = y := by
  classical
  refine ⟨fun x => if ex : ∃ y, R x y then ex.choose else x, fun x y r => ?_⟩
  have ex : ∃ y, R x y := ⟨y, r⟩
  exact (dif_pos ex).trans (unique x _ y ex.choose_spec r)

namespace Heap.Alike

variable {h h' : Heap} (al : Alike R h h') (r : R x y) (eq : ∀ x y, R x y → ρ x = y)

include al r eq

lemma rel_of_reaches {z} (hr : h.Reaches x z) : R z (ρ z) ∧ h'.Reaches y (ρ z) := by
  obtain ⟨w, hw, r'⟩ := al.exists_reaches r hr
  rw [eq z w r']
  exact ⟨r', hw⟩

/-- A renaming takes what one slot reaches to what its companion reaches, one to one. -/
lemma bijOn_reaches : Set.BijOn ρ {z | h.Reaches x z} {w | h'.Reaches y w} := by
  refine ⟨fun z hz => (al.rel_of_reaches r eq hz).2, fun z hz z' hz' e => ?_, fun w hw => ?_⟩
  · have rz := (al.rel_of_reaches r eq hz').1
    rw [← e] at rz
    exact al.left_unique (al.rel_of_reaches r eq hz).1 rz
  · obtain ⟨z, hz, rz⟩ := al.symm.exists_reaches r hw
    exact ⟨z, hz, eq z w rz⟩

end Heap.Alike

/-- Of results related by a function, one is the image of the other. -/
lemma eq_map_of_rel {α β : Type} {P : α → β → Prop} {f : α → β} {o o'}
    (rel : Option.Rel P o o') (eq : ∀ a b, P a b → f a = b) : o' = o.map f := by
  cases rel with
  | none => rfl
  | some p => exact congrArg some (eq _ _ p).symm

namespace Graph.AlikeBy

variable (al : AlikeBy R g g')

include al

lemma of_samePath (sp : SamePath g g' x y) : R x y := by
  obtain ⟨p, e, e'⟩ := sp
  obtain ⟨w, ew, r⟩ := al.heaps.follow al.roots e
  cases ew.symm.trans e'
  exact r

/-- Slots that are live on either side are related by their paths already. -/
lemma samePath : AlikeBy (SamePath g g') g g' := by
  obtain ⟨hx, hy⟩ := al.heaps.lt_size al.roots
  refine ⟨al.exists_unfolds, ⟨fun x y sp => ?_, fun x y y' sp sp' => ?_, fun x x' y sp sp' => ?_⟩,
    [], if_pos hx, if_pos hy⟩
  · obtain ⟨node, node', hg, hg', na⟩ := al.heaps.exists_nodes (al.of_samePath sp)
    refine ⟨node, node', hg, hg', na.of_parts fun i part part' hp hp' => ?_⟩
    obtain ⟨p, e, e'⟩ := sp
    obtain ⟨part'', hp'', r⟩ := na.exists_part hp
    cases hp'.symm.trans hp''
    obtain ⟨lt, lt'⟩ := al.heaps.lt_size r
    refine ⟨p ++ [i], ?_, ?_⟩
    · rw [Heap.follow_append e, Heap.follow_cons hg, hp]
      exact if_pos lt
    · rw [Heap.follow_append e', Heap.follow_cons hg', hp']
      exact if_pos lt'
  · exact al.heaps.right_unique (al.of_samePath sp) (al.of_samePath sp')
  · exact al.heaps.left_unique (al.of_samePath sp) (al.of_samePath sp')

variable (eq : ∀ x y, R x y → ρ x = y)

include eq

lemma rel_of_live (hx : x ∈ g.live) : R x (ρ x) ∧ ρ x ∈ g'.live :=
  al.heaps.rel_of_reaches al.roots eq hx

lemma bijOn_live : Set.BijOn ρ g.live g'.live :=
  al.heaps.bijOn_reaches al.roots eq

end Graph.AlikeBy

/-- Graphs that look alike correspond, by any renaming that goes with the relation. -/
lemma Graph.AlikeBy.correspondsBy (al : AlikeBy R g g') (eq : ∀ x y, R x y → ρ x = y) :
    CorrespondsBy ρ g g' := by
  obtain ⟨t, un⟩ := al.exists_unfolds
  have un' := al.heaps.unfolds un al.roots
  refine ⟨eq _ _ al.roots, al.bijOn_live eq, fun x hx => ?_, ?_, ?_,
    ⟨_, un.bracketed_ok, un'.bracketed_ok⟩,
    fun free => ⟨_, un.readback_ok free, un'.readback_ok free⟩,
    ⟨_, un.sizeFrom_ok, un'.sizeFrom_ok⟩⟩
  · obtain ⟨node, node', hg, hg', na⟩ := al.heaps.exists_nodes (al.rel_of_live eq hx).1
    exact ⟨node, hg, by rw [hg', na.eq_rename eq]⟩
  · obtain ⟨found, found', e, e', rel, rx⟩ := al.heaps.headRedex al.roots un
    rw [eq_map_of_rel rel fun redex redex' ra => ?_] at e'
    · exact ⟨found, e, e', fun redex hm => (rx redex hm).2⟩
    · rw [Redex.rename, eq _ _ ra.slot, eq _ _ ra.body, eq _ _ ra.arg]
  · exact (al.heaps.step al.roots un).imp fun _ _ ⟨rel, _⟩ => eq_map_of_rel rel eq

lemma Graph.AlikeBy.corresponds (al : AlikeBy R g g') : g.Corresponds g' := by
  obtain ⟨ρ, eq⟩ := exists_renaming (R := R) fun x y y' r r' => al.heaps.right_unique r r'
  exact ⟨ρ, al.correspondsBy eq⟩

end WeakHead

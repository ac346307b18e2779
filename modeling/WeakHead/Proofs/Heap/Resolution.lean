import Mathlib.Data.List.Perm.Subperm
import WeakHead.Evaluation
import WeakHead.Proofs.Heap.Building
import WeakHead.Proofs.Term.Indices

/-!
# Resolution of a term

Resolution reads the term with names in the old heap and builds the term with indices behind it. The
table of free names only grows at its end, so the numbers that were given out stay right, and in the
end it holds the free names of the term and no others.
-/

namespace WeakHead

namespace Term

/-- The number of nodes on the longest way down. -/
def height : Term → Nat
  | var _ => 1
  | abs _ body => body.height + 1
  | app fn arg => max fn.height arg.height + 1

/-- A walk that may go as deep as the term is high can take its first step. -/
lemma depth_eq_succ {t : Term} {depth} (hd : t.height ≤ depth) : ∃ d, depth = d + 1 := by
  have hp : 0 < t.height := by cases t <;> simp [height]
  exact Nat.exists_eq_succ_of_ne_zero (Nat.ne_of_gt (Nat.lt_of_lt_of_le hp hd))

lemma height_le_size (t : Term) : t.height ≤ t.size := by
  induction t with
  | var name => exact Nat.le_refl 1
  | abs binder body ih => exact Nat.succ_le_succ ih
  | app fn arg ihf iha =>
    simp only [height, size]
    omega

/-- A term has no more free names than nodes. -/
lemma length_freeNames_le (t : Term) : t.freeNames.length ≤ t.size := by
  induction t with
  | var name => exact Nat.le_refl 1
  | abs binder body ih => exact (List.length_filter_le _ _).trans (Nat.le_succ_of_le ih)
  | app fn arg ihf iha =>
    simp only [freeNames, List.length_append, size]
    omega

end Term

namespace FreeNames

/-- Names that do not repeat are all kept when repetitions are left out. -/
lemma eraseDups_of_nodup {names : List String} (nd : names.Nodup) : names.eraseDups = names := by
  induction names with
  | nil => rfl
  | cons name names ih =>
    obtain ⟨hn, nd⟩ := List.nodup_cons.1 nd
    have hf : names.filter (fun x => !x == name) = names := by
      refine List.filter_eq_self.2 fun x hx => ?_
      simp only [Bool.not_eq_true', beq_eq_false_iff_ne]
      rintro rfl
      exact hn hx
    rw [List.eraseDups_cons, hf, ih nd]

/-- The table may stand for a list of names that it was made from. -/
lemma eraseDups_append {free : FreeNames} {names : List String} (e : free.names = names.eraseDups)
    (more : List String) : (free.names ++ more).eraseDups = (names ++ more).eraseDups := by
  have hr : more.removeAll free.names = more.removeAll names := by
    rw [e]
    exact List.filter_congr fun x _ => by simp
  rw [List.eraseDups_append, List.eraseDups_append, hr, eraseDups_of_nodup free.nodup, e]

/-- A name that is entered has its place in the table, which has grown by that name at its end if it
is new. -/
lemma enter_spec (free : FreeNames) (name : String) :
    (free.enter name).1 = (free.enter name).2.names.idxOf name ∧
      (free.enter name).2.names = (free.names ++ [name]).eraseDups := by
  -- An old name stays in its place, and a new one stands where the table ended.
  rw [List.eraseDups_append, eraseDups_of_nodup free.nodup, enter]
  split
  · rename_i hm
    exact ⟨rfl, by simp [List.removeAll, hm]⟩
  · rename_i hm
    refine ⟨?_, by simp [List.removeAll, hm, List.eraseDups_cons]⟩
    simp only [List.idxOf_append_of_notMem hm, List.idxOf_cons_self, Nat.add_zero]

end FreeNames

namespace Resolution

/-- The heap with the new nodes behind the old ones. -/
def appendedTo (r : Resolution) (h : Heap) : Heap :=
  ⟨h.nodes ++ r.nodes⟩

/-- The slot of a node that is added is the end of the heap. -/
lemma add_eq (r : Resolution) (h : Heap) (node) :
    r.add h.size node = ((r.appendedTo h).size, { r with nodes := r.nodes.push node }) := by
  rw [add, appendedTo, Heap.size, Heap.size, Array.size_append]

/-- A node that is added stands at the end of the heap, whatever else is noted. -/
lemma appendedTo_push (r : Resolution) (h : Heap) (node free occurrences) :
    (Resolution.mk (r.nodes.push node) free occurrences).appendedTo h =
      (r.appendedTo h).push node := by
  rw [appendedTo, appendedTo, Heap.push, Array.append_push]

/-- A variable is added with its index, and entered into the table if it is free. -/
lemma addVar_eq (r : Resolution) (h : Heap) (scope name) :
    r.addVar h.size scope name =
      ((r.appendedTo h).size,
        ⟨r.nodes.push (.idx (indexOf r.free scope name).1), (indexOf r.free scope name).2,
          r.occurrences.push ⟨name, (indexOf r.free scope name).1, scope.length⟩⟩) :=
  add_eq ⟨r.nodes, _, _⟩ h _

/-- The table of free names after a term was resolved inside the binders `scope`: it has grown at
its end by the free names that no binder of the scope has and that were not in it, in the order in
which they first occur. -/
structure Numbers (scope : List String) (t : Term) (free free' : FreeNames) : Prop where
  names_eq : free'.names = (free.names ++ t.freeNames.filter (· ∉ scope)).eraseDups

lemma Numbers.grows {scope t free free'} (nu : Numbers scope t free free') :
    free.names <+: free'.names := by
  rw [nu.names_eq, List.eraseDups_append, FreeNames.eraseDups_of_nodup free.nodup]
  exact List.prefix_append _ _

lemma Numbers.mem_iff {scope t free free'} (nu : Numbers scope t free free') (x) :
    x ∈ free'.names ↔ x ∈ free.names ∨ x ∈ t.freeNames ∧ x ∉ scope := by
  rw [nu.names_eq, List.mem_eraseDups, List.mem_append, List.mem_filter, decide_eq_true_eq]

lemma Numbers.abs {scope t free free' binder} (nu : Numbers (binder :: scope) t free free') :
    Numbers scope (.abs binder t) free free' := by
  refine ⟨?_⟩
  rw [nu.names_eq, Term.filter_freeNames_abs]

/-- What both parts add one after the other is what the application adds. -/
lemma Numbers.app {scope t u free free' free''} (nu : Numbers scope t free free')
    (nu' : Numbers scope u free' free'') : Numbers scope (.app t u) free free'' := by
  refine ⟨?_⟩
  rw [nu'.names_eq, FreeNames.eraseDups_append nu.names_eq, Term.freeNames, List.filter_append,
    List.append_assoc]

/-- All free names of a term have a place after it was resolved. -/
lemma Numbers.covers {scope t free free'} (nu : Numbers scope t free free') :
    ∀ x ∈ t.freeNames, x ∈ scope ++ free'.names := by
  intro x hx
  by_cases hs : x ∈ scope
  · exact List.mem_append_left _ hs
  · exact List.mem_append_right _ ((nu.mem_iff x).2 (.inr ⟨hx, hs⟩))

/-- The indices of a term stay what they are when more names are entered. -/
lemma Numbers.toIndex_eq {scope t free free'} (nu : Numbers scope t free free') {names}
    (grows : free'.names <+: names) :
    t.toIndex (scope ++ names) = t.toIndex (scope ++ free'.names) := by
  -- Binders stand before the names in the table, and the table grows at its end only.
  obtain ⟨more, rfl⟩ := grows
  rw [← List.append_assoc]
  exact Term.toIndex_append nu.covers more

/-- The index of a variable is its place among the binders and the free names. -/
lemma indexOf_spec (free : FreeNames) (scope : List String) (name : String) :
    (indexOf free scope name).1 = (scope ++ (indexOf free scope name).2.names).idxOf name ∧
      Numbers scope (.var name) free (indexOf free scope name).2 := by
  rw [indexOf]
  split
  · rename_i distance e
    have hm : name ∈ scope := List.isSome_idxOf?.1 (by rw [e]; rfl)
    refine ⟨?_, ⟨?_⟩⟩
    · rw [List.idxOf_append_of_mem hm, List.idxOf_eq_getD_idxOf?, e]
      rfl
    · simp [Term.freeNames, hm, FreeNames.eraseDups_of_nodup free.nodup]
  · rename_i e
    have hn : name ∉ scope := List.idxOf?_eq_none_iff.1 e
    obtain ⟨ei, en⟩ := free.enter_spec name
    refine ⟨?_, ⟨?_⟩⟩
    · rw [List.idxOf_append_of_notMem hn, Nat.add_comm scope.length, ← ei]
    · simp [Term.freeNames, hn, en]

/-! ### The walk -/

variable {h : Heap} {slot : Slot} {scope : List String}

lemma within_var {name} (hg : h.get slot = .ok (.var name)) (depth) (r : Resolution) :
    within h (depth + 1) scope slot r = .ok (r.addVar h.size scope name) := by
  rw [within, hg]
  rfl

lemma within_abs {binder body} (hg : h.get slot = .ok (.abs binder body)) (depth)
    (r : Resolution) :
    within h (depth + 1) scope slot r =
      (within h depth (binder :: scope) body r).map fun (body, r) => r.add h.size (.lam body) := by
  rw [within, hg]
  rfl

lemma within_app {fn arg} (hg : h.get slot = .ok (.app fn arg)) (depth) (r : Resolution) :
    within h (depth + 1) scope slot r =
      (within h depth scope fn r).bind fun (fn, r) =>
        (within h depth scope arg r).map fun (arg, r) => r.add h.size (.app fn arg) := by
  rw [within, hg]
  rfl

/-- The second resolution has gone through a term since the first. -/
structure Resolves (h : Heap) (scope : List String) (t : Term) (r r' : Resolution) (root : Slot) :
    Prop where
  built : Heap.Built (r.appendedTo h) (r'.appendedTo h) root (t.toIndex (scope ++ r'.free.names))
  numbers : Numbers scope t r.free r'.free

lemma resolves_var (h : Heap) (scope name) (r : Resolution) :
    Resolves h scope (.var name) r (r.addVar h.size scope name).2
      (r.addVar h.size scope name).1 := by
  obtain ⟨ei, nu⟩ := indexOf_spec r.free scope name
  rw [addVar_eq]
  refine ⟨?_, nu⟩
  rw [appendedTo_push, Term.toIndex, ← ei]
  exact Heap.built_idx _ _

variable {t u : Term} {r r' r'' : Resolution} {root root' : Slot}

lemma Resolves.abs {binder} (re : Resolves h (binder :: scope) t r r' root) :
    Resolves h scope (.abs binder t) r (r'.add h.size (.lam root)).2
      (r'.add h.size (.lam root)).1 := by
  obtain ⟨bt, nu⟩ := re
  rw [add_eq]
  refine ⟨?_, nu.abs⟩
  rw [appendedTo_push]
  exact bt.lam

/-- An application has been gone through after both of its parts. -/
lemma Resolves.app (ref : Resolves h scope t r r' root) (rea : Resolves h scope u r' r'' root') :
    Resolves h scope (.app t u) r (r''.add h.size (.app root root')).2
      (r''.add h.size (.app root root')).1 := by
  obtain ⟨bf, nu⟩ := ref
  obtain ⟨ba, nu'⟩ := rea
  rw [add_eq]
  refine ⟨?_, nu.app nu'⟩
  rw [appendedTo_push, Term.toIndex, nu.toIndex_eq nu'.grows]
  exact bf.app ba

end Resolution

open Resolution in
/-- A term with names can be resolved: the term with indices is built behind the old nodes. -/
lemma Heap.UnfoldsNamed.resolveWithin_ok {h : Heap} {slot t} (un : h.UnfoldsNamed slot t) {depth}
    (hd : t.height ≤ depth) (scope) (r : Resolution) :
    ∃ root r', within h depth scope slot r = .ok (root, r') ∧ Resolves h scope t r r' root := by
  induction t generalizing slot depth scope r with
  | var name =>
    obtain ⟨depth, rfl⟩ := Term.depth_eq_succ hd
    cases un with
    | var hg => exact ⟨_, _, within_var hg depth r, resolves_var h scope name r⟩
  | abs binder body ih =>
    obtain ⟨depth, rfl⟩ := Term.depth_eq_succ hd
    cases un with
    | abs hg unb =>
      obtain ⟨root, r', e, re⟩ := ih unb (Nat.le_of_succ_le_succ hd) (binder :: scope) r
      refine ⟨_, _, ?_, re.abs⟩
      rw [within_abs hg, e]
      rfl
  | app fn arg ihf iha =>
    obtain ⟨depth, rfl⟩ := Term.depth_eq_succ hd
    have hd := Nat.le_of_succ_le_succ hd
    cases un with
    | app hg unf una =>
      obtain ⟨root, r', e, ref⟩ := ihf unf (le_of_max_le_left hd) scope r
      obtain ⟨root', r'', e', rea⟩ := iha una (le_of_max_le_right hd) scope r'
      refine ⟨_, _, ?_, ref.app rea⟩
      rw [within_app hg, e]
      show (within h depth scope _ r').map _ = _
      rw [e']
      rfl

namespace Heap

lemma UnfoldsNamed.grow {h h' : Heap} {slot t} (un : h.UnfoldsNamed slot t) (kp : Keeps h h' ∅) :
    h'.UnfoldsNamed slot t := by
  induction un with
  | var hg => exact .var (kp.get_ok hg (Finset.notMem_empty _))
  | abs hg _ ih => exact .abs (kp.get_ok hg (Finset.notMem_empty _)) ih
  | app hg _ _ ihf iha => exact .app (kp.get_ok hg (Finset.notMem_empty _)) ihf iha

/-- A term that was laid out can be read from its root. -/
lemma layOut_spec (h : Heap) (t : Term) :
    (h.layOut t).1.UnfoldsNamed (h.layOut t).2 t ∧ Keeps h (h.layOut t).1 ∅ := by
  induction t generalizing h with
  | var name => exact ⟨.var (get_push_size h _), keeps_push h _ ∅⟩
  | abs binder body ih =>
    obtain ⟨un, kp⟩ := ih h
    have kp' := keeps_push (h.layOut body).1 (.abs binder (h.layOut body).2) ∅
    exact ⟨.abs (get_push_size _ _) (un.grow kp'), kp.trans kp' (.refl _ _)⟩
  | app fn arg ihf iha =>
    obtain ⟨unf, kp⟩ := ihf h
    obtain ⟨una, kp'⟩ := iha (h.layOut fn).1
    have kp'' := keeps_push ((h.layOut fn).1.layOut arg).1
      (.app (h.layOut fn).2 ((h.layOut fn).1.layOut arg).2) ∅
    exact ⟨.app (get_push_size _ _) ((unf.grow kp').grow kp'') (una.grow kp''),
      (kp.trans kp' (.refl _ _)).trans kp'' (.refl _ _)⟩

end Heap

/-- The names of a term that is not higher than walks may go can be resolved. The term with indices
is built behind the old nodes, and the table lists the free names of the term. -/
lemma Heap.UnfoldsNamed.resolve_ok {g : Graph} {t} (un : g.heap.UnfoldsNamed g.root t)
    (hd : t.height ≤ g.heap.depthBound) :
    ∃ r, g.resolve = .ok r ∧
      Built g.heap r.graph.heap r.graph.root (t.toIndex r.free.names) ∧
      r.free.names = t.freeNames.eraseDups := by
  obtain ⟨root, r, e, bt, nu⟩ := un.resolveWithin_ok hd [] .empty
  have eh : Resolution.empty.appendedTo g.heap = g.heap := by
    rw [Resolution.appendedTo, Resolution.empty, Array.append_empty]
  refine ⟨⟨⟨r.appendedTo g.heap, root⟩, r.free, r.occurrences⟩, ?_, ?_, ?_⟩
  · rw [Graph.resolve, e]
    rfl
  · rwa [eh] at bt
  · simpa [Resolution.empty, FreeNames.empty] using nu.names_eq

/-- What the resolution of a whole term gives: a tree of the term with indices, and a table that
lists the free names of the term. -/
structure Resolved.Stands (r : Resolved) (t : Term) : Prop where
  tree : ∃ S, r.graph.heap.TreeAt r.graph.root (t.toIndex r.free.names) S
  names_eq : r.free.names = t.freeNames.eraseDups
  size_eq : r.graph.heap.size = 2 * t.size

lemma Resolved.Stands.mem_iff {r : Resolved} {t} (st : r.Stands t) (x) :
    x ∈ r.free.names ↔ x ∈ t.freeNames := by
  rw [st.names_eq, List.mem_eraseDups]

lemma Graph.unfoldsNamed_ofTerm (t : Term) :
    (Graph.ofTerm t).heap.UnfoldsNamed (Graph.ofTerm t).root t :=
  (Heap.layOut_spec .empty t).1

lemma Graph.size_ofTerm (t : Term) : (Graph.ofTerm t).heap.size = t.size :=
  (Heap.size_layOut .empty t).trans (Nat.zero_add _)

lemma Graph.height_le_ofTerm (t : Term) : t.height ≤ (Graph.ofTerm t).heap.depthBound := by
  rw [Heap.depthBound, size_ofTerm]
  exact Nat.le_succ_of_le t.height_le_size

/-- The names of a term that stands in a heap of its own can be resolved. -/
lemma Graph.resolve_ofTerm (t : Term) :
    ∃ r, (Graph.ofTerm t).resolve = .ok r ∧ r.Stands t := by
  obtain ⟨r, e, bt, en⟩ := (unfoldsNamed_ofTerm t).resolve_ok (height_le_ofTerm t)
  refine ⟨r, e, ⟨_, bt.tree⟩, en, ?_⟩
  rw [bt.size_eq, size_ofTerm, Term.size_toIndex, Nat.two_mul]

/-- A source that can be read is resolved as its term. -/
lemma Resolved.read_of_resolve {source t r} (e : Term.parse source = .ok t)
    (er : (Graph.ofTerm t).resolve = .ok r) : Resolved.read source = .ok r := by
  have eg : Graph.read source = .ok (.ofTerm t) := by rw [Graph.read, e]
  rw [Resolved.read, eg]
  show Failure.ofHeap (Graph.ofTerm t).resolve = _
  rw [er]
  rfl

lemma Graph.exists_term_of_read {source named} (e : Graph.read source = .ok named) :
    ∃ t, Term.parse source = .ok t ∧ named = .ofTerm t := by
  cases ep : Term.parse source with
  | error fault =>
    rw [Graph.read, ep] at e
    cases e
  | ok t =>
    rw [Graph.read, ep] at e
    cases e
    exact ⟨t, rfl, rfl⟩

/-- A source that can be read can be resolved. -/
lemma Resolved.read_ok {source t} (e : Term.parse source = .ok t) :
    ∃ r, Resolved.read source = .ok r ∧ r.Stands t := by
  obtain ⟨r, er, st⟩ := Graph.resolve_ofTerm t
  exact ⟨r, Resolved.read_of_resolve e er, st⟩

end WeakHead

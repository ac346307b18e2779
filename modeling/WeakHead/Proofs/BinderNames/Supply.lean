import WeakHead.FreeNames
import WeakHead.Proofs.BinderNames

/-!
# A supply under requests

A supply is asked for names by depth, in any order and as often as one likes. While it has no name
for the depth, it looks at one candidate after the other and writes down those that are free
(`Finds`); `nameAt` goes from one free candidate to the next and comes to the same end. What was
asked before does not count for a name, only for how many candidates were looked at. All but as many
of these as there are names taken have become names.

Main statement: `nameAtAll_avoiding`.
-/

namespace WeakHead.BinderNames

/-- Looks at the next candidate, and writes it down if it is not taken. -/
def look (b : BinderNames) : BinderNames :=
  if nth b.looked ∈ b.taken then { b with looked := b.looked + 1 }
  else { b with chosen := b.chosen.push (nth b.looked), looked := b.looked + 1 }

/-- The supply looks at candidates while it has no name for the depth. -/
inductive Finds (depth : Nat) : BinderNames → BinderNames → Prop where
  | found {b} : depth < b.chosen.size → Finds depth b b
  | look {b b'} : b.chosen.size ≤ depth → Finds depth b.look b' → Finds depth b b'

/-- The names at some depths, asked for one after the other. -/
def nameAtAll (b : BinderNames) : List Nat → List String × BinderNames
  | [] => ([], b)
  | depth :: depths =>
    let (name, b) := b.nameAt depth
    let (names, b) := b.nameAtAll depths
    (name :: names, b)

/-- The letters from `a` to `z`, and after the first round the number of the round behind each. -/
def round (number : Nat) : List String :=
  "abcdefghijklmnopqrstuvwxyz".toList.map fun letter =>
    if number = 0 then letter.toString else letter.toString ++ toString number

/-- The candidates of the first rounds. -/
def rounds (count : Nat) : List String :=
  (List.range count).flatMap round

variable {b b' b'' : BinderNames} {depth : Nat}

/-! ### The search for the name at a depth -/

/-- The search has one result. -/
lemma Finds.unique (fd : Finds depth b b') (fd' : Finds depth b b'') : b'' = b' := by
  induction fd with
  | found lt =>
    cases fd' with
    | found _ => rfl
    | look le _ => exact absurd lt (Nat.not_lt.2 le)
  | look le _ ih =>
    cases fd' with
    | found lt => exact absurd lt (Nat.not_lt.2 le)
    | look _ fd' => exact ih fd'

/-- Candidates that are taken are passed over until the first free one is written down. -/
lemma Finds.of_firstFree {tries n} (e : firstFree b.taken tries b.looked = some n)
    (le : b.chosen.size ≤ depth)
    (fd : Finds depth { b with chosen := b.chosen.push (nth n), looked := n + 1 } b') :
    Finds depth b b' := by
  induction tries generalizing b with
  | zero => cases e
  | succ tries ih =>
    refine .look le ?_
    rw [firstFree] at e
    split at e
    · rename_i ht
      rw [BinderNames.look, if_pos ht]
      exact ih e le fd
    · rename_i hf
      cases e
      rw [BinderNames.look, if_neg hf]
      exact fd

lemma finds_growBy {count} (e : b.chosen.size + count = depth + 1) :
    Finds depth b (b.growBy count) := by
  induction count generalizing b with
  | zero => exact .found (show depth < b.chosen.size by omega)
  | succ count ih =>
    obtain ⟨n, en, eg⟩ := exists_grow_eq b
    have es : b.grow.chosen.size + count = depth + 1 := by
      rw [eg, Array.size_push]
      omega
    have fd := ih es
    rw [growBy]
    generalize b.grow.growBy count = b' at fd
    rw [eg] at fd
    exact fd.of_firstFree en (by omega)

lemma finds_nameAt (b : BinderNames) (depth) : Finds depth b (b.nameAt depth).2 := by
  cases Nat.lt_or_ge depth b.chosen.size with
  | inl lt =>
    rw [nameAt, Nat.sub_eq_zero_of_le lt]
    exact .found lt
  | inr le => exact finds_growBy (by omega)

/-! ### Requests one after the other -/

lemma Faithful.size_nameAt (fb : b.Faithful) (depth) :
    (b.nameAt depth).2.chosen.size = max b.chosen.size (depth + 1) := by
  obtain ⟨-, -, es⟩ := fb.growBy (depth + 1 - b.chosen.size)
  rw [BinderNames.nameAt, es]
  omega

/-- The answer is what the supply has written down for the depth. -/
lemma Faithful.chosen_nameAt (fb : b.Faithful) (depth) :
    (b.nameAt depth).2.chosen[depth]? = some (b.nameAt depth).1 := by
  obtain ⟨en, fb', et⟩ := fb.nameAt depth
  have es := fb.size_nameAt depth
  rw [fb'.chosen_eq depth (by omega), et, fb.nameAt_fst]

lemma nameAtAll_cons (b : BinderNames) (depth depths) :
    b.nameAtAll (depth :: depths) =
      ((b.nameAt depth).1 :: ((b.nameAt depth).2.nameAtAll depths).1,
        ((b.nameAt depth).2.nameAtAll depths).2) := by
  rfl

/-- Requests are answered by depth, and leave no more names than the deepest of them needs. -/
lemma Faithful.nameAtAll (fb : b.Faithful) (depths : List Nat) :
    (b.nameAtAll depths).1 = depths.map (binderName b.taken) ∧
      (b.nameAtAll depths).2.Faithful ∧ (b.nameAtAll depths).2.taken = b.taken ∧
      ∀ bound, b.chosen.size ≤ bound + 1 → (∀ depth ∈ depths, depth ≤ bound) →
        (b.nameAtAll depths).2.chosen.size ≤ bound + 1 := by
  induction depths generalizing b with
  | nil => exact ⟨rfl, fb, rfl, fun _ le _ => le⟩
  | cons depth depths ih =>
    obtain ⟨en, fb', et⟩ := fb.nameAt depth
    obtain ⟨es, fb'', et', le'⟩ := ih fb'
    rw [nameAtAll_cons]
    refine ⟨?_, fb'', et'.trans et, fun bound le hd => le' bound ?_ ?_⟩
    · rw [List.map_cons, en, es, et]
    · have hd := hd depth List.mem_cons_self
      rw [fb.size_nameAt]
      omega
    · exact fun depth hm => hd depth (List.mem_cons_of_mem _ hm)

/-! ### Candidates in rounds -/

lemma round_eq (number : Nat) :
    round number = (List.range 26).map fun i => nth (26 * number + i) := by
  have letters : "abcdefghijklmnopqrstuvwxyz".toList =
      (List.range 26).map fun i => Char.ofNat (97 + i) := by decide +kernel
  refine (congrArg (List.map _) letters).trans ?_
  rw [List.map_map]
  refine List.map_congr_left fun i hi => ?_
  have lt := List.mem_range.1 hi
  have mod : (26 * number + i) % 26 = i := by omega
  have div : (26 * number + i) / 26 = number := by omega
  rw [nth, mod, div]
  rfl

lemma rounds_eq (count : Nat) : rounds count = (List.range (26 * count)).map nth := by
  rw [rounds]
  induction count with
  | zero => rfl
  | succ count ih =>
    rw [List.range_succ, List.flatMap_append, List.flatMap_singleton, ih, Nat.mul_succ,
      List.range_add, List.map_append, List.map_map, round_eq]
    rfl

/-- The free ones among the first candidates, in order. -/
lemma filter_range_isFree (taken n) : (List.range n).filter (fun k => nth k ∉ taken) =
    (List.range (Nat.count (IsFree taken) n)).map (Nat.nth (IsFree taken)) := by
  induction n with
  | zero => rfl
  | succ n ih =>
    rw [List.range_succ, List.filter_append, ih, Nat.count_succ]
    by_cases hf : IsFree taken n
    · rw [if_pos hf, List.range_succ, List.map_append, List.map_singleton, Nat.nth_count hf,
        List.filter_singleton, decide_eq_true hf]
      rfl
    · rw [if_neg hf, List.filter_singleton, decide_eq_false hf]
      simp

/-- All but as many of the first candidates as there are names taken are free. -/
lemma le_count_isFree (taken : List String) (n) :
    n ≤ Nat.count (IsFree taken) n + taken.length := by
  have e := List.length_eq_length_filter_add (l := List.range n) fun k => decide (nth k ∉ taken)
  have nodup := (@List.nodup_range n).filter fun k => !decide (nth k ∉ taken)
  have le := @length_le_of_taken taken _ nodup fun k hk => by simpa using (List.mem_filter.1 hk).2
  rw [filter_range_isFree, List.length_map, List.length_range, List.length_range] at e
  omega

/-- With rounds enough, the name at a depth is the one that is left there. -/
lemma getElem?_filter_rounds {taken : List String} {count}
    (le : depth + 1 + taken.length ≤ 26 * count) :
    ((rounds count).filter (· ∉ taken))[depth]? = some (binderName taken depth) := by
  have lt : depth < Nat.count (IsFree taken) (26 * count) := by
    have := le_count_isFree taken (26 * count)
    omega
  have e : (rounds count).filter (· ∉ taken) =
      ((List.range (26 * count)).filter fun k => nth k ∉ taken).map nth := by
    rw [rounds_eq, List.filter_map]
    rfl
  rw [e, filter_range_isFree, List.map_map, List.getElem?_map, List.getElem?_range lt,
    binderName_eq]
  rfl

/-- After any requests to a supply that avoids the names of free variables, a search for the next
name ends as `nameAt` does, and its answer is written down for that depth. The answers have gone by
depth: at each depth it is the name that comes there if the free variables' names are left out of
`a` to `z`, `a1` to `z1` and so on. Different depths have different names, none is that of a free
variable, and each is read as one identifier. No more candidates were looked at than the deepest
request has names to write down and free variables have names. -/
theorem nameAtAll_avoiding (free : FreeNames) (depths : List Nat) :
    let names := ((avoiding free.names).nameAtAll depths).1
    let b := ((avoiding free.names).nameAtAll depths).2
    (∀ depth, ∃ name b', b.nameAt depth = (name, b') ∧ b'.chosen[depth]? = some name ∧
      ∀ b'', Finds depth b b'' ↔ b'' = b') ∧
    names = depths.map (binderName free.names) ∧
    (∀ depth count, depth + 1 + free.size ≤ 26 * count →
      ((rounds count).filter (· ∉ free.names))[depth]? = some (binderName free.names depth)) ∧
    Function.Injective (binderName free.names) ∧
    (∀ depth, binderName free.names depth ∉ free.names ∧
      Token.ofSource (binderName free.names depth) = [.ident (binderName free.names depth)]) ∧
    ∀ bound, (∀ depth ∈ depths, depth ≤ bound) → b.looked ≤ bound + 1 + free.size := by
  intro names b
  obtain ⟨en, fb, et, small⟩ := (faithful_avoiding free.names).nameAtAll depths
  refine ⟨fun depth => ⟨_, _, rfl, fb.chosen_nameAt depth, fun b'' => ⟨fun fd => ?_, ?_⟩⟩, en,
    fun depth count le => getElem?_filter_rounds le, binderName_injective _,
    fun depth => ⟨binderName_notMem _ _, (lexable_binderName _ _).ofChars_alone⟩,
    fun bound hd => ?_⟩
  · exact (finds_nameAt b depth).unique fd
  · rintro rfl
    exact finds_nameAt b depth
  · have le := le_count_isFree b.taken b.looked
    rw [fb.count_eq, et] at le
    exact le.trans (Nat.add_le_add_right (small bound (Nat.zero_le _) hd) free.size)

-- Without `b` the letters end at depth 24, and `a1` is passed over as well.
example : ((avoiding ["b", "a1"]).nameAtAll [25, 0, 1, 25]).1 = ["b1", "a", "c", "b1"] := by
  decide +kernel

end WeakHead.BinderNames

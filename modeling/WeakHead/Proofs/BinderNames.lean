import Mathlib.Data.List.Perm.Subperm
import Mathlib.Data.Nat.Nth
import Mathlib.Tactic.Common
import WeakHead.BinderNames
import WeakHead.Proofs.Token

/-!
# The supply of binder names

Different candidates are different names, so a supply never runs out: among one more candidates than
there are names taken one is free. The name for depth `d` is candidate number `d` among those that
are free (`binderName`). So what a supply answers does not hang on what it was asked before, and
different depths get different names, none of which is taken.
-/

namespace WeakHead.BinderNames

/-! ### Candidates -/

lemma toList_nth (n : Nat) :
    (nth n).toList =
      Char.ofNat (97 + n % 26) :: if n / 26 = 0 then [] else Nat.toDigits 10 (n / 26) := by
  have er : toString (n / 26) = Nat.repr (n / 26) := rfl
  rw [nth, er, Char.toString]
  split
  · rw [String.toList_singleton]
  · rw [String.toList_append, String.toList_singleton, Nat.toList_repr]
    rfl

/-- The letter of a candidate tells its place in its round. -/
lemma toNat_letter (n : Nat) : (Char.ofNat (97 + n % 26)).toNat = 97 + n % 26 := by
  have hl : ∀ k < 26, (Char.ofNat (97 + k)).toNat = 97 + k := by decide
  exact hl _ (Nat.mod_lt n (by decide))

/-- The digits of a candidate tell its round. -/
lemma ofDigitChars_round (n : Nat) :
    Nat.ofDigitChars 10 (if n / 26 = 0 then [] else Nat.toDigits 10 (n / 26)) 0 = n / 26 := by
  split
  · rw [Nat.ofDigitChars_nil]
    omega
  · exact Nat.ofDigitChars_ten_toDigits

/-- Different candidates are different names. -/
lemma nth_injective : Function.Injective nth := by
  intro m n e
  have el := congrArg String.toList e
  rw [toList_nth, toList_nth, List.cons_eq_cons] at el
  have mod : 97 + m % 26 = 97 + n % 26 := by
    rw [← toNat_letter, el.1, toNat_letter]
  have div : m / 26 = n / 26 := by
    rw [← ofDigitChars_round, el.2, ofDigitChars_round]
  omega

/-- The candidate is not taken. -/
abbrev IsFree (taken : List String) (n : Nat) : Prop :=
  nth n ∉ taken

/-! ### The search for a free candidate -/

/-- The search ends at the first free candidate from `n` on. -/
lemma firstFree_eq_some {taken tries n m} (e : firstFree taken tries n = some m) :
    n ≤ m ∧ IsFree taken m ∧ ∀ k, n ≤ k → k < m → ¬ IsFree taken k := by
  induction tries generalizing n with
  | zero => cases e
  | succ tries ih =>
    rw [firstFree] at e
    split at e
    · rename_i ht
      obtain ⟨le, hf, hk⟩ := ih e
      refine ⟨Nat.le_of_succ_le le, hf, fun k hn hlt => ?_⟩
      cases Nat.eq_or_lt_of_le hn with
      | inl e => exact e ▸ not_not.2 ht
      | inr lt => exact hk k lt hlt
    · cases e
      exact ⟨Nat.le_refl _, by assumption, fun k hn hlt => absurd hlt (Nat.not_lt.2 hn)⟩

/-- A search that finds nothing has met names that are taken only. -/
lemma firstFree_eq_none {taken tries n} (e : firstFree taken tries n = none) :
    ∀ k ∈ List.range' n tries, nth k ∈ taken := by
  induction tries generalizing n with
  | zero => simp
  | succ tries ih =>
    rw [firstFree] at e
    split at e
    · rename_i ht
      rw [List.range'_succ, List.forall_mem_cons]
      exact ⟨ht, ih e⟩
    · cases e

/-- There are no more different candidates that are taken than there are names taken. -/
lemma length_le_of_taken {taken : List String} {l : List Nat} (nodup : l.Nodup)
    (ht : ∀ n ∈ l, nth n ∈ taken) : l.length ≤ taken.length := by
  have sub : l.map nth ⊆ taken := fun name hm => by
    obtain ⟨n, hn, rfl⟩ := List.mem_map.1 hm
    exact ht n hn
  have le := (List.subperm_of_subset (nodup.map nth_injective) sub).length_le
  rwa [List.length_map] at le

/-- One more try than there are names taken is enough. -/
lemma exists_firstFree (taken : List String) (n : Nat) :
    ∃ m, firstFree taken (taken.length + 1) n = some m := by
  -- One candidate more is looked at than names are taken, and the candidates differ.
  refine Option.ne_none_iff_exists'.1 fun e => ?_
  have le := length_le_of_taken List.nodup_range' (firstFree_eq_none e)
  rw [List.length_range'] at le
  exact Nat.not_succ_le_self _ le

/-- No list of names holds all candidates from some place on. -/
lemma infinite_isFree (taken : List String) : (Set.ofPred (IsFree taken)).Infinite := by
  refine Set.infinite_of_forall_exists_gt fun n => ?_
  obtain ⟨m, e⟩ := exists_firstFree taken (n + 1)
  obtain ⟨le, hf, -⟩ := firstFree_eq_some e
  exact ⟨m, hf, le⟩

/-! ### The names of a supply -/

/-- The name of the binder inside `depth` others, where no name in `taken` may be used: what a new
supply answers. -/
def binderName (taken : List String) (depth : Nat) : String :=
  ((avoiding taken).nameAt depth).1

/-- The supply has written down the free ones among the candidates that it looked at. -/
structure Faithful (b : BinderNames) : Prop where
  chosen_eq : ∀ d < b.chosen.size, b.chosen[d]? = some (nth (Nat.nth (IsFree b.taken) d))
  count_eq : Nat.count (IsFree b.taken) b.looked = b.chosen.size

lemma faithful_avoiding (taken : List String) : (avoiding taken).Faithful :=
  ⟨fun d hd => absurd hd (Nat.not_lt_zero d), Nat.count_zero _⟩

/-- There is no free candidate between the ones looked at and the next one that is chosen. -/
lemma count_eq_of_firstFree {taken tries n m} (e : firstFree taken tries n = some m) :
    Nat.count (IsFree taken) m = Nat.count (IsFree taken) n := by
  obtain ⟨le, -, hk⟩ := firstFree_eq_some e
  obtain ⟨d, rfl⟩ := Nat.exists_eq_add_of_le le
  rw [Nat.count_add, Nat.add_eq_left, Nat.count_iff_forall_not]
  intro k hlt
  exact hk (n + k) (Nat.le_add_right n k) (Nat.add_lt_add_left hlt n)

lemma exists_grow_eq (b : BinderNames) :
    ∃ m, firstFree b.taken (b.taken.length + 1) b.looked = some m ∧
      b.grow = { b with chosen := b.chosen.push (nth m), looked := m + 1 } := by
  obtain ⟨m, e⟩ := exists_firstFree b.taken b.looked
  exact ⟨m, e, by rw [grow, e]⟩

/-- The next name is the next free candidate. -/
lemma Faithful.grow {b : BinderNames} (fb : b.Faithful) :
    b.grow.Faithful ∧ b.grow.taken = b.taken ∧ b.grow.chosen.size = b.chosen.size + 1 := by
  obtain ⟨m, e, eg⟩ := exists_grow_eq b
  obtain ⟨-, hf, -⟩ := firstFree_eq_some e
  have hc : Nat.count (IsFree b.taken) m = b.chosen.size := by
    rw [count_eq_of_firstFree e, fb.count_eq]
  rw [eg]
  refine ⟨⟨fun d hd => ?_, ?_⟩, rfl, Array.size_push _⟩
  · rw [Array.size_push] at hd
    cases Nat.eq_or_lt_of_le (Nat.le_of_lt_succ hd) with
    | inl ed =>
      -- The new name: as many free candidates come before it as names were chosen.
      have hn := Nat.nth_count hf
      rw [hc, ← ed] at hn
      rw [hn, ed, Array.getElem?_push_size]
    | inr lt => rw [Array.getElem?_push_lt lt, ← Array.getElem?_eq_getElem lt, fb.chosen_eq d lt]
  · rw [Array.size_push, Nat.count_succ, if_pos hf, hc]

/-- All names that are chosen are right. -/
lemma Faithful.growBy {b : BinderNames} (fb : b.Faithful) (count : Nat) :
    (b.growBy count).Faithful ∧ (b.growBy count).taken = b.taken ∧
      (b.growBy count).chosen.size = b.chosen.size + count := by
  induction count generalizing b with
  | zero => exact ⟨fb, rfl, rfl⟩
  | succ count ih =>
    obtain ⟨fg, et, es⟩ := fb.grow
    obtain ⟨fg', et', es'⟩ := ih fg
    refine ⟨fg', et'.trans et, ?_⟩
    rw [BinderNames.growBy, es', es, Nat.add_right_comm, Nat.add_assoc]

/-- A supply answers with the free candidate of that number. -/
lemma Faithful.nameAt_fst {b : BinderNames} (fb : b.Faithful) (depth : Nat) :
    (b.nameAt depth).1 = nth (Nat.nth (IsFree b.taken) depth) := by
  obtain ⟨fg, et, es⟩ := fb.growBy (depth + 1 - b.chosen.size)
  have hd : depth < (b.growBy (depth + 1 - b.chosen.size)).chosen.size := by omega
  rw [nameAt, Array.getD_eq_getD_getElem?, fg.chosen_eq depth hd, et]
  rfl

/-- The name for a depth is the free candidate of that number. -/
lemma binderName_eq (taken depth) : binderName taken depth = nth (Nat.nth (IsFree taken) depth) :=
  (faithful_avoiding taken).nameAt_fst depth

/-- What a supply answers does not hang on what it was asked before. -/
lemma Faithful.nameAt {b : BinderNames} (fb : b.Faithful) (depth : Nat) :
    (b.nameAt depth).1 = binderName b.taken depth ∧ (b.nameAt depth).2.Faithful ∧
      (b.nameAt depth).2.taken = b.taken := by
  obtain ⟨fg, et, -⟩ := fb.growBy (depth + 1 - b.chosen.size)
  exact ⟨(fb.nameAt_fst depth).trans (binderName_eq _ _).symm, fg, et⟩

/-- Different depths have different names. -/
lemma binderName_injective (taken : List String) : Function.Injective (binderName taken) := by
  intro d d' e
  rw [binderName_eq, binderName_eq] at e
  exact Nat.nth_injective (infinite_isFree taken) (nth_injective e)

lemma binderName_notMem (taken depth) : binderName taken depth ∉ taken := by
  rw [binderName_eq]
  exact Nat.nth_mem_of_infinite (infinite_isFree taken) depth

/-! ### Candidates can be read -/

lemma isDigit_of_mem_round {n c} (hm : c ∈ if n / 26 = 0 then [] else Nat.toDigits 10 (n / 26)) :
    c.isDigit = true := by
  split at hm
  · cases hm
  · exact Nat.isDigit_of_mem_toDigits (by decide) (by decide) hm

lemma endsWord_of_isDigit {c : Char} (hc : c.isDigit = true) : Token.endsWord c = false := by
  have hd : ∀ k < 10, Token.endsWord (Char.ofNat (48 + k)) = false := by decide
  rw [Char.isDigit, Bool.and_eq_true, decide_eq_true_eq, decide_eq_true_eq] at hc
  have ge : 48 ≤ c.toNat := hc.1
  have le : c.toNat ≤ 57 := hc.2
  have e := hd (c.toNat - 48) (by omega)
  rwa [show 48 + (c.toNat - 48) = c.toNat by omega, Char.ofNat_toNat] at e

/-- No letter of a candidate ends a word, and none is an equals sign. -/
lemma endsWord_letter (n : Nat) :
    Token.endsWord (Char.ofNat (97 + n % 26)) = false ∧ Char.ofNat (97 + n % 26) ≠ '=' := by
  have hl : ∀ k < 26,
      Token.endsWord (Char.ofNat (97 + k)) = false ∧ Char.ofNat (97 + k) ≠ '=' := by decide
  exact hl _ (Nat.mod_lt n (by decide))

/-- A word with a character behind the first that is no digit is no candidate. -/
lemma nth_ne_of_tail {n word c cs d} (ew : String.toList word = c :: cs) (hm : d ∈ cs)
    (hd : d.isDigit = false) : nth n ≠ word := by
  rintro rfl
  rw [toList_nth, List.cons_eq_cons] at ew
  rw [← ew.2] at hm
  rw [isDigit_of_mem_round hm] at hd
  cases hd

/-- Every candidate is read as an identifier. -/
lemma lexable_nth (n : Nat) : Lexable (nth n) := by
  have hl := endsWord_letter n
  have eq : nth n ≠ "=" := by
    intro e
    have el := congrArg String.toList e
    rw [toList_nth, show "=".toList = ['='] from rfl, List.cons_eq_cons] at el
    exact hl.2 el.1
  refine ⟨?_, fun c hc => ?_, ?_⟩
  · rw [toList_nth]
    exact List.cons_ne_nil _ _
  · rw [toList_nth] at hc
    cases List.mem_cons.1 hc with
    | inl e => exact e ▸ hl.1
    | inr hm => exact endsWord_of_isDigit (isDigit_of_mem_round hm)
  · rw [Token.ofWord, if_neg (nth_ne_of_tail (d := 'e') rfl (by decide) (by decide)),
      if_neg (nth_ne_of_tail (d := 'n') rfl (by decide) (by decide)), if_neg eq]

lemma lexable_binderName (taken depth) : Lexable (binderName taken depth) := by
  rw [binderName_eq]
  exact lexable_nth _

end WeakHead.BinderNames

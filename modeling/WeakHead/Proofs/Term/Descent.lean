import Mathlib.Data.List.Basic
import Mathlib.Data.Set.Subsingleton
import WeakHead.Proofs.Term.Reading
import WeakHead.Term.Descent

/-!
# What a descent reads, and where it is refused

A descent that may go deep enough does with a source what the reader does: it reads the same term,
or it is refused at the same place, names the same tokens as expected there and the same rule. In
particular a rule that is tried and given up hides no term. What a group leaves behind when its next
term fails can only be its closing parenthesis. If it is not there, the refusal of that term is at
the same place and united with what the group expects, or it is further on and counts alone.

Main statements: `Descent.parse_eq`, `Term.parse_eq_ok_iff_derives`.
-/

namespace WeakHead

namespace Descent

open Reader

variable {α β : Type}

/-! ### The furthest refusal -/

namespace Refusal

variable {later earlier r : Refusal} {passed : Option Refusal} {n : Nat}

/-- A later refusal that is further on counts. -/
lemma furthest_of_lt (lt : later.rest.length < earlier.rest.length) :
    later.furthest earlier = later := by
  rw [furthest, if_pos lt]

/-- An earlier refusal that is further on counts. -/
lemma furthest_of_gt (gt : earlier.rest.length < later.rest.length) :
    later.furthest earlier = earlier := by
  rw [furthest, if_neg (Nat.lt_asymm gt), if_pos gt]

/-- At one place the refusals are united. -/
lemma furthest_of_eq (e : earlier.rest = later.rest) :
    later.furthest earlier =
      { later with expected := earlier.expected.foldr expect later.expected } := by
  rw [furthest, e, if_neg (Nat.lt_irrefl _), if_neg (Nat.lt_irrefl _)]

/-- Refusals on the way do not count for one that is further on than all of them. -/
lemma orEarlier_eq (behind : ∀ p ∈ passed, r.rest.length < p.rest.length) :
    r.orEarlier passed = r := by
  cases passed with
  | none => rfl
  | some p => exact furthest_of_lt (behind p rfl)

/-- Refusals at one place stay there. -/
lemma orEarlier_rest (he : ∀ p ∈ passed, p.rest = r.rest) : (r.orEarlier passed).rest = r.rest := by
  cases passed with
  | none => rfl
  | some p => rw [orEarlier, furthest_of_eq (he p rfl)]

/-- The furthest refusal stands at one of the two places. -/
lemma lt_furthest (lt : n < later.rest.length) (lt' : n < earlier.rest.length) :
    n < (later.furthest earlier).rest.length := by
  rw [furthest]
  split
  · exact lt
  · split
    · exact lt'
    · exact lt

/-- The furthest of refusals that lie before a place lies before it. -/
lemma lt_furthest? {first second : Option Refusal} (behind : ∀ r ∈ first, n < r.rest.length)
    (behind' : ∀ r ∈ second, n < r.rest.length) :
    ∀ r ∈ furthest? first second, n < r.rest.length := by
  cases second with
  | none => exact behind
  | some later =>
    rintro r ⟨⟩
    cases first with
    | none => exact behind' later rfl
    | some earlier => exact lt_furthest (behind' later rfl) (behind earlier rfl)

/-- A refusal that belongs to a rule stays with it. -/
lemma inside_eq {rule} (hr : r.rule.isSome) : r.inside rule = r := by
  obtain ⟨rest, expected, own⟩ := r
  cases own with
  | none => cases hr
  | some own => rfl

end Refusal

/-! ### A descent along the reader -/

/-- What a descent makes of the lexemes, inside a rule, is what the reader does with them on its way
from the readers `before` to the readers `after`, whatever frames it is in. The descent has been
refused at no place on the way that lies behind its end. -/
inductive Agrees (length : Nat) (rule : Option Rule) (before : List Frame → Reader)
    (after : α → List Frame → Reader) (ls : List Lexeme) : Except Refusal (Reading α) → Prop where
  | read {a rest passed} :
    rest.length ≤ ls.length →
    (∀ r ∈ passed, rest.length < r.rest.length) →
    (∀ frames, run length (before frames) ls = run length (after a frames) rest) →
    Agrees length rule before after ls (.ok ⟨a, rest, passed⟩)
  | refused {r} :
    r.rest.length ≤ ls.length →
    (∀ frames, run length (before frames) ls = .error ((r.inside rule).error length)) →
    Agrees length rule before after ls (.error r)

variable {length : Nat} {rule : Option Rule} {before : List Frame → Reader} {ls : List Lexeme}

/-- Nothing is read on no way. -/
lemma agrees_pure {after : α → List Frame → Reader} {a}
    (e : ∀ frames, before frames = after a frames) :
    Agrees length rule before after ls ((pure a : Descent α) ls) :=
  .read (Nat.le_refl _) (by rintro _ ⟨⟩) fun frames => by rw [e]

/-- What has been read and what is read behind it are put together. -/
lemma Agrees.andThen {mid : α → List Frame → Reader} {after : β → List Frame → Reader}
    {second : α → Descent β} {reading} (ag : Agrees length rule before mid ls (.ok reading))
    (ag' : Agrees length rule (mid reading.value) after reading.rest
      (second reading.value reading.rest)) :
    Agrees length rule before after ls (reading.andThen second) := by
  rw [Reading.andThen]
  cases ag with
  | @read a rest passed le behind e =>
    dsimp only at ag' ⊢
    generalize second a rest = outcome at ag'
    cases ag' with
    | read le' behind' e' =>
      refine .read (Nat.le_trans le' le) (Refusal.lt_furthest? (fun r hr => ?_) behind')
        fun frames => (e frames).trans (e' frames)
      exact Nat.lt_of_le_of_lt le' (behind r hr)
    | @refused r le' e' =>
      -- What was refused on the way to here lies before this place, and so it does not count.
      have eo : r.orEarlier passed = r :=
        Refusal.orEarlier_eq fun p hp => Nat.lt_of_le_of_lt le' (behind p hp)
      dsimp only
      rw [eo]
      exact .refused (Nat.le_trans le' le) fun frames => (e frames).trans (e' frames)

/-- The ways of two descents are put together. -/
lemma Agrees.bind {mid : α → List Frame → Reader} {after : β → List Frame → Reader}
    {first : Descent α} {second : α → Descent β} (ag : Agrees length rule before mid ls (first ls))
    (ag' : ∀ a rest, rest.length ≤ ls.length →
      Agrees length rule (mid a) after rest (second a rest)) :
    Agrees length rule before after ls ((first >>= second) ls) := by
  show Agrees length rule before after ls (Descent.bind first second ls)
  rw [Descent.bind]
  generalize first ls = outcome at ag
  cases ag with
  | read le behind e => exact (Agrees.read le behind e).andThen (ag' _ _ le)
  | refused le e => exact .refused le e

/-- The frames on the way may be inside others. -/
lemma Agrees.within {after : α → List Frame → Reader} {outcome}
    (ag : Agrees length rule before after ls outcome) (into : List Frame → List Frame) :
    Agrees length rule (fun frames => before (into frames)) (fun a frames => after a (into frames))
      ls outcome := by
  cases ag with
  | read le behind e => exact .read le behind fun frames => e (into frames)
  | refused le e => exact .refused le fun frames => e (into frames)

/-- The way may begin earlier, with what the reader goes through. -/
lemma Agrees.of_run_eq {before' : List Frame → Reader} {after : α → List Frame → Reader}
    {rest outcome} (le : rest.length ≤ ls.length)
    (e : ∀ frames, run length (before frames) ls = run length (before' frames) rest)
    (ag : Agrees length rule before' after rest outcome) :
    Agrees length rule before after ls outcome := by
  cases ag with
  | read le' behind e' =>
    exact .read (Nat.le_trans le' le) behind fun frames => (e frames).trans (e' frames)
  | refused le' e' =>
    exact .refused (Nat.le_trans le' le) fun frames => (e frames).trans (e' frames)

/-- Where only one thing can come next, a descent that asks for it goes along with the reader. -/
lemma agrees_next (state : State) (after : α → List Frame → Reader) {take : Token → Option α}
    (hc : ∀ t, state ≠ .complete t)
    (ea : ∀ frames token, advance ⟨state, frames⟩ token = (take token).map (after · frames)) :
    Agrees length state.rule (fun frames => ⟨state, frames⟩) after ls
      (next take state.expected ls) := by
  cases ls with
  | nil =>
    refine .refused (Nat.le_refl _) fun frames => ?_
    cases state with
    | complete t => exact absurd rfl (hc t)
    | _ => rfl
  | cons lexeme ls =>
    rw [next]
    cases et : take lexeme.token with
    | none =>
      refine .refused (Nat.le_refl _) fun frames => ?_
      rw [run, ea, et]
      rfl
    | some a =>
      refine .read (Nat.le_succ _) (by rintro _ ⟨⟩) fun frames => ?_
      rw [run, ea, et]
      rfl

/-- A rule that has been refused inside itself is refused there whatever is around it. -/
lemma Agrees.labelled {own : Rule} {item : Descent α} {after : α → List Frame → Reader} {ls'}
    (ag : Agrees length (some own) before after ls (item ls')) :
    Agrees length rule before after ls (labelled own item ls') := by
  rw [Descent.labelled]
  generalize item ls' = outcome at ag
  cases ag with
  | @read a rest passed le behind e =>
    refine .read le (fun r hr => ?_) e
    obtain ⟨p, hp, rfl⟩ := Option.map_eq_some_iff.1 hr
    exact behind p hp
  | @refused r le e =>
    have ei : (r.inside (some own)).inside rule = r.inside (some own) :=
      Refusal.inside_eq (by cases er : r.rule <;> simp [Refusal.inside, er])
    exact .refused le fun frames => by rw [ei, e frames]

/-! ### A term and what starts none -/

/-- Where a term can start, a token leads into it. -/
lemma advance_start {frames token} : advance ⟨.start, frames⟩ token = enter frames token :=
  rfl

/-- What a descent makes of the lexemes as a term: the first one starts none, or the descent goes on
from it along the reader. In the second case it is not refused before the second lexeme. -/
inductive ReadsTerm (length : Nat) : List Lexeme → Except Refusal (Reading Term) → Prop where
  | unopened {ls : List Lexeme} :
    (∀ lexeme ∈ ls.head?, ∀ frames, enter frames lexeme.token = none) →
    ReadsTerm length ls (.error ⟨ls, State.start.expected, State.start.rule⟩)
  | opened {lexeme : Lexeme} {before} {ls : List Lexeme} {outcome} :
    (∀ frames, enter frames lexeme.token = some (before frames)) →
    (∀ rule, Agrees length rule before resume ls outcome) →
    ReadsTerm length (lexeme :: ls) outcome

/-- Either way the descent goes along the reader. -/
lemma ReadsTerm.agrees {outcome} (rt : ReadsTerm length ls outcome) :
    Agrees length rule (fun frames => ⟨.start, frames⟩) resume ls outcome := by
  cases rt with
  | unopened hn =>
    refine .refused (Nat.le_refl _) fun frames => ?_
    cases ls with
    | nil => rfl
    | cons lexeme ls =>
      rw [run, advance_start, hn lexeme rfl]
      rfl
  | @opened lexeme before ls outcome e ag =>
    refine (ag rule).of_run_eq (Nat.le_succ _) fun frames => ?_
    rw [run, advance_start, e]

/-- A descent reads terms along the reader where there are fewer lexemes than `depth`. -/
def ReadsTerms (length depth : Nat) (sub : Descent Term) : Prop :=
  ∀ ls : List Lexeme, ls.length < depth → ReadsTerm length ls (sub ls)

/-! ### Rules by their first token -/

/-- Where nothing was refused on the way, what follows is all. -/
lemma andThen_of_none {a} {second : α → Descent β} :
    Reading.andThen ⟨a, ls, none⟩ second = second a ls := by
  rw [Reading.andThen]
  dsimp only
  rcases second a ls with r | ⟨b, rest, passed⟩
  · rfl
  · cases passed <;> rfl

/-- What is taken from the front leaves the rest to what follows. -/
lemma next_bind {take : Token → Option α} {expected} {second : α → Descent β} {lexeme : Lexeme} {a}
    (e : take lexeme.token = some a) :
    (next take expected >>= second) (lexeme :: ls) = second a ls := by
  show Descent.bind (next take expected) second (lexeme :: ls) = _
  rw [Descent.bind, next, e]
  exact andThen_of_none

/-- Where nothing can be taken from the front, what follows is not tried. -/
lemma next_bind_of_none {take : Token → Option α} {expected} {second : α → Descent β}
    (hn : ∀ lexeme ∈ ls.head?, take lexeme.token = none) :
    (next take expected >>= second) ls = .error ⟨ls, expected, none⟩ := by
  show Descent.bind (next take expected) second ls = _
  cases ls with
  | nil => rfl
  | cons lexeme ls => rw [Descent.bind, next, hn lexeme rfl]

/-- A rule that the first lexeme does not fit is refused at it. -/
lemma labelled_of_none {own : Rule} {take : Token → Option α} {expected} {second : α → Descent β}
    (hn : ∀ lexeme ∈ ls.head?, take lexeme.token = none) :
    labelled own (next take expected >>= second) ls = .error ⟨ls, expected, some own⟩ := by
  rw [labelled, next_bind_of_none hn]
  rfl

/-! ### The terms of a group -/

section Group

variable {depth count : Nat} {sub : Descent Term} {fn : Term} {passed : Option Refusal}

/-- A group is not closed by anything else than its parenthesis. -/
lemma close_of_ne (hn : ∀ lexeme ∈ ls.head?, lexeme.token ≠ .closeParen) :
    close fn ls = .error ⟨ls, [some .closeParen], none⟩ :=
  next_bind_of_none fun lexeme hl => if_neg (hn lexeme hl)

/-- A group is closed where its last term has ended. What was refused of another term at this place
could have stood there as well as the closing parenthesis. -/
lemma agrees_close (hn : ∀ lexeme ∈ ls.head?, ∀ frames, enter frames lexeme.token = none) :
    Agrees length (some .application) (fun frames => ⟨.rest fn, frames⟩) resume ls
      (Reading.andThen ⟨fn, ls, some ⟨ls, State.start.expected, State.start.rule⟩⟩ close) := by
  rw [Reading.andThen]
  dsimp only
  by_cases hc : ∃ lexeme ∈ ls.head?, lexeme.token = .closeParen
  · obtain ⟨lexeme, hl, hc⟩ := hc
    obtain ⟨ls, rfl⟩ := List.head?_eq_some_iff.1 hl
    rw [show close fn (lexeme :: ls) = .ok ⟨fn, ls, none⟩ from next_bind (if_pos hc)]
    refine .read (Nat.le_succ _) ?_ fun frames => ?_
    · rintro r ⟨⟩
      exact Nat.lt_succ_self _
    · rw [run, hc]
      rfl
  · have hc : ∀ lexeme ∈ ls.head?, lexeme.token ≠ .closeParen := fun lexeme hl e =>
      hc ⟨lexeme, hl, e⟩
    rw [close_of_ne hc]
    dsimp only
    rw [Refusal.orEarlier, Refusal.furthest_of_eq]
    · refine .refused (Nat.le_refl _) fun frames => ?_
      cases ls with
      | nil => rfl
      | cons lexeme ls =>
        rw [run, advance_rest (hc lexeme rfl), advance_start, hn lexeme rfl]
        rfl
    · rfl

/-- The terms of a group and its end are read along the reader, behind the first term. -/
lemma agrees_arguments (rt : ReadsTerms length depth sub) (hc : ls.length < count)
    (hd : ls.length < depth) (behind : ∀ r ∈ passed, ls.length < r.rest.length) :
    Agrees length (some .application) (fun frames => ⟨.rest fn, frames⟩) resume ls
      ((arguments sub count fn passed ls).andThen close) := by
  -- Each term takes up a lexeme, so that the group comes to its end before the count does.
  induction count generalizing fn passed ls with
  | zero => exact absurd hc (Nat.not_lt_zero _)
  | succ count ih =>
    rw [arguments]
    have rt' := rt ls hd
    generalize sub ls = outcome at rt'
    cases rt' with
    | unopened hn =>
      dsimp only
      rw [furthest?, Refusal.orEarlier_eq behind]
      exact agrees_close hn
    | @opened lexeme before ls outcome e ag =>
      have hn : lexeme.token ≠ .closeParen := fun hc => by
        have e := e []
        rw [hc] at e
        cases e
      have er frames : run length ⟨.rest fn, frames⟩ (lexeme :: ls) =
          run length (before (.argument fn :: frames)) ls := by
        rw [run, advance_rest hn, advance_start, e]
      have ag := ag (some .application)
      rw [List.length_cons] at hc hd behind
      cases ag with
      | @read arg rest later le behind' e' =>
        refine (ih (by omega) (by omega) ?_).of_run_eq (Nat.le_succ_of_le le)
          fun frames => (er frames).trans (e' _)
        exact Refusal.lt_furthest? (fun r hr => by have := behind r hr; omega) behind'
      | @refused r le e' =>
        -- The term has begun, so its refusal is further on than that of the missing parenthesis.
        have eo : r.orEarlier passed = r :=
          Refusal.orEarlier_eq fun p hp => Nat.lt_of_le_of_lt (Nat.le_succ_of_le le) (behind p hp)
        dsimp only
        rw [furthest?, eo, Reading.andThen, close_of_ne (by rintro _ ⟨⟩; exact hn)]
        dsimp only
        rw [Refusal.orEarlier, Refusal.furthest_of_gt (Nat.lt_succ_of_le le)]
        exact .refused (Nat.le_succ_of_le le) fun frames => (er frames).trans (e' _)

end Group

/-! ### The choice of a rule -/

/-- The rule is refused at the first lexeme. -/
def Unfit (ls : List Lexeme) (rule : Descent α) : Prop :=
  ∃ r, rule ls = .error r ∧ r.rest = ls

/-- A rule whose first token is missing does not fit. -/
lemma unfit_of_none {own : Rule} {take : Token → Option α} {expected} {second : α → Descent β}
    (hn : ∀ lexeme ∈ ls.head?, take lexeme.token = none) :
    Unfit ls (labelled own (next take expected >>= second)) :=
  ⟨_, labelled_of_none hn, rfl⟩

/-- Rules that do not fit do not count behind one that is refused further on. -/
lemma choice_of_lt {rules : List (Descent α)} {r : Refusal} (lt : r.rest.length < ls.length)
    (un : rules.Forall (Unfit ls)) : choice (some r) rules ls = .error r := by
  induction rules with
  | nil => rfl
  | cons rule rules ih =>
    obtain ⟨⟨r', e, er⟩, un⟩ := (List.forall_cons ..).1 un
    rw [choice, e]
    dsimp only
    rw [Refusal.orEarlier, Refusal.furthest_of_gt (er ▸ lt), ih un]

/-- Where all other rules do not fit and one is not refused before the second lexeme, the choice is
that one. -/
lemma choice_eq {item : Descent α} {others rules : List (Descent α)} {earlier : Option Refusal}
    (he : ∀ r ∈ earlier, r.rest = ls) (un : others.Forall (Unfit ls))
    (lt : ∀ r, item ls = .error r → r.rest.length < ls.length) (un' : rules.Forall (Unfit ls)) :
    choice earlier (others ++ item :: rules) ls = item ls := by
  induction others generalizing earlier with
  | nil =>
    rw [List.nil_append, choice]
    cases ei : item ls with
    | ok reading => rfl
    | error r =>
      have lt := lt r ei
      dsimp only
      rw [Refusal.orEarlier_eq fun p hp => he p hp ▸ lt, choice_of_lt lt un']
  | cons rule others ih =>
    -- One more refusal at the first lexeme; united with those before, it stays there.
    obtain ⟨⟨r, e, er⟩, un⟩ := (List.forall_cons ..).1 un
    rw [List.cons_append, choice, e]
    refine ih ?_ un
    rintro _ ⟨⟩
    rw [Refusal.orEarlier_rest fun p hp => (he p hp).trans er.symm, er]

/-- A term starts with the first token of a rule if it goes on as the rule does. -/
lemma ReadsTerm.of_rule {own : Rule} {take : Token → Option α} {expected a}
    {second : α → Descent Term} {lexeme : Lexeme} (others rules : List (Descent Term))
    (un : others.Forall (Unfit (lexeme :: ls))) (un' : rules.Forall (Unfit (lexeme :: ls)))
    (et : take lexeme.token = some a)
    (e : ∀ frames, enter frames lexeme.token = some (before frames))
    (ag : Agrees length (some own) before resume ls (second a ls)) :
    ReadsTerm length (lexeme :: ls) (labelled .term
      (choice none (others ++ labelled own (next take expected >>= second) :: rules))
      (lexeme :: ls)) := by
  have ag (rule) : Agrees length rule before resume ls
      (labelled own (next take expected >>= second) (lexeme :: ls)) :=
    Agrees.labelled (by rwa [next_bind et])
  have lt r (er : labelled own (next take expected >>= second) (lexeme :: ls) = .error r) :
      r.rest.length < (lexeme :: ls).length := by
    have ag := ag none
    rw [er] at ag
    cases ag with
    | refused le _ => exact Nat.lt_succ_of_le le
  have ec : choice none (others ++ labelled own (next take expected >>= second) :: rules)
      (lexeme :: ls) = labelled own (next take expected >>= second) (lexeme :: ls) :=
    choice_eq (by rintro _ ⟨⟩) un lt un'
  exact .opened e fun rule => Agrees.labelled (by rw [ec]; exact ag _)

/-- A token with which no term starts is none of those with which one starts. -/
lemma ne_of_enter_eq_none {token other} (e : ∀ frames, enter frames token = none)
    (eo : (enter [] other).isSome) : token ≠ other := by
  rintro rfl
  rw [e] at eo
  cases eo

/-- Where no term starts, all rules are refused, and the first tokens of all of them are named. -/
lemma term_unopened {depth} (hn : ∀ lexeme ∈ ls.head?, ∀ frames, enter frames lexeme.token = none) :
    term (depth + 1) ls = .error ⟨ls, State.start.expected, State.start.rule⟩ := by
  have just_none {token lexeme} (hl : lexeme ∈ ls.head?) (eo : (enter [] token).isSome) :
      (if lexeme.token = token then some () else none) = none :=
    if_neg (ne_of_enter_eq_none (hn lexeme hl) eo)
  have hv : var ls = .error ⟨ls, [], some .var⟩ := labelled_of_none fun lexeme hl => by
    cases et : lexeme.token with
    | ident name => exact absurd et (ne_of_enter_eq_none (hn lexeme hl) rfl)
    | _ => rfl
  have ha : abs (term depth) ls = .error ⟨ls, [some .lambda], some .abstraction⟩ :=
    labelled_of_none fun _ hl => just_none hl rfl
  have hb : binding (term depth) ls = .error ⟨ls, [some .letWord], some .binding⟩ :=
    labelled_of_none fun _ hl => just_none hl rfl
  have hg : group (term depth) ls = .error ⟨ls, [some .openParen], some .application⟩ :=
    labelled_of_none fun _ hl => just_none hl rfl
  rw [term, labelled]
  simp only [choice, hv, ha, hb, hg, Refusal.orEarlier, Refusal.furthest_of_eq, Option.getD_some]
  rfl

/-! ### Terms -/

section Rules

variable {depth : Nat} {sub : Descent Term}

/-- The rest of an abstraction, behind its first token. -/
lemma agrees_abs (rt : ReadsTerms length depth sub) (hd : ls.length < depth) :
    Agrees length (some .abstraction) (fun frames => ⟨.binder, frames⟩) resume ls
      ((do
        let binder ← name
        just .dot
        let body ← sub
        return .abs binder body : Descent Term) ls) := by
  refine (agrees_next .binder (fun binder frames => ⟨.dot binder, frames⟩) nofun
    fun _ token => by cases token <;> rfl).bind fun binder ls₁ le₁ => ?_
  refine (agrees_next (.dot binder) (fun _ frames => ⟨.start, .body binder :: frames⟩) nofun
    fun _ token => by cases token <;> rfl).bind fun _ ls₂ le₂ => ?_
  refine ((rt ls₂ (by omega)).agrees.within (.body binder :: ·)).bind fun body ls₃ _ => ?_
  exact agrees_pure fun _ => rfl

/-- The rest of a `let`, behind its first token. -/
lemma agrees_binding (rt : ReadsTerms length depth sub) (hd : ls.length < depth) :
    Agrees length (some .binding) (fun frames => ⟨.letBinder, frames⟩) resume ls
      ((do
        let binder ← name
        just .equals
        let value ← sub
        just .inWord
        let body ← sub
        return .app (.abs binder body) value : Descent Term) ls) := by
  refine (agrees_next .letBinder (fun binder frames => ⟨.letEquals binder, frames⟩) nofun
    fun _ token => by cases token <;> rfl).bind fun binder ls₁ le₁ => ?_
  refine (agrees_next (.letEquals binder) (fun _ frames => ⟨.start, .value binder :: frames⟩) nofun
    fun _ token => by cases token <;> rfl).bind fun _ ls₂ le₂ => ?_
  refine ((rt ls₂ (by omega)).agrees.within (.value binder :: ·)).bind fun value ls₃ le₃ => ?_
  refine (agrees_next (.letIn binder value)
    (fun _ frames => ⟨.start, .scope binder value :: frames⟩) nofun
    fun _ token => by cases token <;> rfl).bind fun _ ls₄ le₄ => ?_
  refine ((rt ls₄ (by omega)).agrees.within (.scope binder value :: ·)).bind fun body ls₅ _ => ?_
  exact agrees_pure fun _ => rfl

/-- The rest of a group, behind its first token. -/
lemma agrees_group (rt : ReadsTerms length depth sub) (hd : ls.length < depth) :
    Agrees length (some .application) (fun frames => ⟨.start, .group :: frames⟩) resume ls
      ((do
        let fn ← sub
        items sub fn : Descent Term) ls) := by
  refine ((rt ls hd).agrees.within (.group :: ·)).bind fun fn ls₁ le₁ => ?_
  exact agrees_arguments rt (Nat.lt_succ_self _) (by omega) (by rintro _ ⟨⟩)

end Rules

/-- A descent goes along the reader as long as there are no more lexemes than it may go deep. -/
lemma readsTerms_term (length depth : Nat) : ReadsTerms length depth (term depth) := by
  induction depth with
  | zero => exact fun ls lt => absurd lt (Nat.not_lt_zero _)
  | succ depth ih =>
    intro ls lt
    by_cases hn : ∀ lexeme ∈ ls.head?, ∀ frames, enter frames lexeme.token = none
    · rw [term_unopened hn]
      exact .unopened hn
    obtain _ | ⟨⟨token, start, stop⟩, ls⟩ := ls
    · exact absurd nofun hn
    -- The first token tells the one rule that fits. What is inside begins behind it, so the depth
    -- that is left is enough.
    have hd : ls.length < depth := Nat.lt_of_succ_lt_succ lt
    have unfit {token' own} {second : Unit → Descent Term} (ne : token ≠ token') :
        Unfit (⟨token, start, stop⟩ :: ls) (labelled own (just token' >>= second)) :=
      unfit_of_none (by rintro _ ⟨⟩; exact if_neg ne)
    have unfit_var (ne : ∀ name, token ≠ .ident name) : Unfit (⟨token, start, stop⟩ :: ls) var :=
      unfit_of_none (by rintro _ ⟨⟩; cases token <;> first | rfl | exact absurd rfl (ne _))
    cases token with
    | ident name =>
      exact .of_rule [] [abs (term depth), binding (term depth), group (term depth)] trivial
        ⟨unfit nofun, unfit nofun, unfit nofun⟩ rfl (fun _ => rfl) (agrees_pure fun _ => rfl)
    | lambda =>
      exact .of_rule [var] [binding (term depth), group (term depth)] (unfit_var nofun)
        ⟨unfit nofun, unfit nofun⟩ rfl (fun _ => rfl) (agrees_abs ih hd)
    | letWord =>
      exact .of_rule [var, abs (term depth)] [group (term depth)] ⟨unfit_var nofun, unfit nofun⟩
        (unfit nofun) rfl (fun _ => rfl) (agrees_binding ih hd)
    | openParen =>
      exact .of_rule [var, abs (term depth), binding (term depth)] []
        ⟨unfit_var nofun, unfit nofun, unfit nofun⟩ trivial rfl (fun _ => rfl) (agrees_group ih hd)
    | _ => exact absurd (by rintro _ ⟨⟩ frames; rfl) hn

/-! ### Whole sources -/

/-- A whole source has the same outcome as with the reader. -/
lemma whole_eq (length : Nat) (ls : List Lexeme) : whole length ls = run length initial ls := by
  have ag : Agrees length none (fun frames => ⟨.start, frames⟩) resume ls
      (term (ls.length + 1) ls) := (readsTerms_term length _ ls (Nat.lt_succ_self _)).agrees
  have ea : alone (ls.length + 1) ls = Descent.bind (term (ls.length + 1)) _ ls := rfl
  rw [whole, ea, Descent.bind]
  generalize term (ls.length + 1) ls = outcome at ag
  cases ag with
  | @refused r _ e =>
    refine Eq.trans ?_ (e []).symm
    rw [Refusal.inside, Option.or_none]
  | @read t rest passed _ behind e =>
    refine Eq.trans ?_ (e []).symm
    cases rest with
    | nil => rfl
    | cons lexeme rest =>
      -- There is more behind the term. Nothing on the way was refused as far on as that.
      have eo : Refusal.orEarlier ⟨lexeme :: rest, [none], none⟩ passed = _ :=
        Refusal.orEarlier_eq behind
      have er : Reading.andThen ⟨t, lexeme :: rest, passed⟩ (fun t => do finish; return t) =
          .error (Refusal.orEarlier ⟨lexeme :: rest, [none], none⟩ passed) := rfl
      dsimp only
      rw [er, eo]
      rfl

end Descent

/-- A source is read by descent as it is by the reader, or refused with the same error. -/
lemma Descent.parse_eq (source : String) : Descent.parse source = Term.parse source :=
  whole_eq source.length (Token.scan source)

/-- A source is read as a term exactly if its tokens derive this term. The rules of the notation may
as well be tried one after another, with what a failing rule has taken given back. And there is no
choice between terms: a token list derives one at most. -/
theorem Term.parse_eq_ok_iff_derives (source : String) (t : Term) :
    (Term.parse source = .ok t ↔ Derives ((Token.scan source).map Lexeme.token) t) ∧
      (Term.parse source = .ok t ↔ Descent.parse source = .ok t) ∧
      ∀ ts : List Token, {u | Derives ts u}.Subsingleton := by
  refine ⟨parse_eq_ok_iff, by rw [Descent.parse_eq], fun ts u du v dv => ?_⟩
  obtain ⟨_, eu⟩ := Reader.advanceAll_initial_iff.2 du
  obtain ⟨_, ev⟩ := Reader.advanceAll_initial_iff.2 dv
  cases eu.symm.trans ev
  rfl

/-- The abstraction at the start of a group ends after one term. -/
example : Descent.parse "(λx.x y)" = .ok (.app (.abs "x" (.var "x")) (.var "y")) := by
  decide +kernel

end WeakHead

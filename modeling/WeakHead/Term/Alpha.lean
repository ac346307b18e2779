import WeakHead.Term

/-!
# Terms up to the names of their binders

Two terms are the same up to the names of binders if their variables match place by place: both
bound by binders at the same place, or both free and of one name. Substitution avoids capture by
giving every binder that it passes a name which the result does not use otherwise, and the head step
of a term with names is stated with it.
-/

namespace WeakHead.Term

/-- The names of the free variables, from left to right. -/
def freeNames : Term → List String
  | var name => [name]
  | abs binder body => body.freeNames.filter (· ≠ binder)
  | app fn arg => fn.freeNames ++ arg.freeNames

/-- Variables that mean the same inside the given pairs of binders, innermost first. -/
def SameVar : List (String × String) → String → String → Prop
  | [], x, y => x = y
  | (a, b) :: around, x, y => (x = a ∧ y = b) ∨ (x ≠ a ∧ y ≠ b ∧ SameVar around x y)

/-- Terms that are the same up to the names of binders, inside the given pairs of binders. -/
inductive AlphaWithin : List (String × String) → Term → Term → Prop where
  | var {around : List (String × String)} {x y : String} :
    SameVar around x y → AlphaWithin around (var x) (var y)
  | abs {around : List (String × String)} {x y : String} {t u : Term} :
    AlphaWithin ((x, y) :: around) t u → AlphaWithin around (abs x t) (abs y u)
  | app {around : List (String × String)} {t t' u u' : Term} :
    AlphaWithin around t u → AlphaWithin around t' u' →
    AlphaWithin around (app t t') (app u u')

/-- Terms that are the same up to the names of binders. -/
def AlphaEq (t u : Term) : Prop :=
  AlphaWithin [] t u

/-- The number of characters of all names together. -/
def totalLength : List String → Nat
  | [] => 0
  | name :: rest => name.length + totalLength rest

/-- A name that is longer than any of the given ones. -/
def freshName (avoid : List String) : String :=
  String.ofList (List.replicate (totalLength avoid + 1) 'x')

/-- Puts a term in for every free variable. -/
def substAll (σ : String → Term) : Term → Term
  | var name => σ name
  | abs binder body =>
    let used := (body.freeNames.filter (· ≠ binder)).flatMap fun name => (σ name).freeNames
    let renamed := freshName used
    abs renamed (substAll (fun name => if name = binder then var renamed else σ name) body)
  | app fn arg => app (substAll σ fn) (substAll σ arg)

/-- Puts `value` in for the free variable `name`. -/
def subst (name : String) (value : Term) (t : Term) : Term :=
  substAll (fun other => if other = name then value else var other) t

/-- The term after the contraction of the applied abstraction on its spine, if there is one. -/
def headStep? : Term → Option Term
  | app (abs binder body) arg => some (subst binder arg body)
  | app fn arg => (headStep? fn).map fun fn => app fn arg
  | _ => none

/-- No name is longer than all names together. -/
theorem length_le_totalLength {names : List String} {name : String} (h : name ∈ names) :
    name.length ≤ totalLength names := by
  induction names with
  | nil => cases h
  | cons head rest ih =>
    cases List.mem_cons.1 h with
    | inl he => rw [he]; exact Nat.le_add_right _ _
    | inr hr => exact Nat.le_trans (ih hr) (Nat.le_add_left _ _)

/-- The new name is none of the given ones. -/
theorem freshName_not_mem (avoid : List String) : freshName avoid ∉ avoid := by
  intro hm
  have hle := length_le_totalLength hm
  rw [freshName, String.length_ofList, List.length_replicate] at hle
  exact Nat.not_succ_le_self _ hle

/-- A variable means the same inside binders of the same names. -/
theorem sameVar_refl {around : List (String × String)} (h : ∀ p ∈ around, p.1 = p.2) (x : String) :
    SameVar around x x := by
  induction around with
  | nil => rfl
  | cons p around ih =>
    obtain ⟨a, b⟩ := p
    have hab : a = b := h (a, b) (by simp)
    subst hab
    by_cases hx : x = a
    · exact .inl ⟨hx, hx⟩
    · exact .inr ⟨hx, hx, ih fun p hp => h p (by simp [hp])⟩

/-- A term is the same as itself inside binders of the same names. -/
theorem alphaWithin_refl {around : List (String × String)} (h : ∀ p ∈ around, p.1 = p.2)
    (t : Term) : AlphaWithin around t t := by
  induction t generalizing around with
  | var x => exact .var (sameVar_refl h x)
  | abs x t ih =>
    refine .abs (ih fun p hp => ?_)
    cases List.mem_cons.1 hp with
    | inl he => rw [he]
    | inr hr => exact h p hr
  | app t u iht ihu => exact .app (iht h) (ihu h)

/-- Every term is the same as itself up to the names of binders. -/
theorem AlphaEq.refl (t : Term) : AlphaEq t t :=
  alphaWithin_refl (by simp) t

end WeakHead.Term

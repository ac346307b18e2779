/-!
# Names for binders

Terms with indices have no binder names, so printing has to supply some: `a` to `z`, then `a1` to
`z1`, `a2` to `z2` and so on, leaving out the names that are taken. The binder inside `d` others
gets name number `d` of this sequence. The supply writes the sequence down as far as it was asked
for.
-/

namespace WeakHead

/-- A supply of names that are not taken. -/
structure BinderNames where
  /-- The names that binders must not have. -/
  taken : List String
  /-- The names given out so far, by depth. -/
  chosen : Array String
  /-- The number of candidates that were looked at. -/
  looked : Nat
deriving DecidableEq, Repr, Inhabited

namespace BinderNames

/-- Candidate number `n`: a letter, and after the first round the number of the round. -/
def nth (n : Nat) : String :=
  let letter := (Char.ofNat (97 + n % 26)).toString
  if n / 26 = 0 then letter else letter ++ toString (n / 26)

/-- A supply that has given out nothing. -/
def avoiding (taken : List String) : BinderNames :=
  ⟨taken, #[], 0⟩

/-- The first of `tries` candidates from `n` on that is not taken. -/
def firstFree (taken : List String) : (tries : Nat) → Nat → Option Nat
  | 0, _ => none
  | tries + 1, n => if nth n ∈ taken then firstFree taken tries (n + 1) else some n

/-- Chooses one more name. Different candidates are different names, so among one more candidates
than there are names taken one is free. -/
def grow (b : BinderNames) : BinderNames :=
  match firstFree b.taken (b.taken.length + 1) b.looked with
  | some n => { b with chosen := b.chosen.push (nth n), looked := n + 1 }
  | none => b

/-- Chooses `count` more names. -/
def growBy : (count : Nat) → BinderNames → BinderNames
  | 0, b => b
  | count + 1, b => growBy count b.grow

/-- The name of the binder inside `depth` others, and the supply that has written it down. -/
def nameAt (b : BinderNames) (depth : Nat) : String × BinderNames :=
  let b := b.growBy (depth + 1 - b.chosen.size)
  (b.chosen.getD depth "", b)

end BinderNames

end WeakHead

/-!
# Free names

The free variables of a term are numbered by their names, in the order in which they first occur.
A table lists the names; the number of a name is its place.
-/

namespace WeakHead

/-- A list of names without repetition. -/
structure FreeNames where
  names : List String
  nodup : names.Nodup
deriving DecidableEq, Repr

namespace FreeNames

/-- The table without names. -/
def empty : FreeNames :=
  ⟨[], List.nodup_nil⟩

/-- The empty table is the default. -/
instance : Inhabited FreeNames := ⟨empty⟩

/-- The number of names. -/
def size (free : FreeNames) : Nat :=
  free.names.length

/-- The number of a name, if the table has it. -/
def numberOf? (free : FreeNames) (name : String) : Option Nat :=
  free.names.idxOf? name

/-- The name with a number, if the table has one. -/
def name? (free : FreeNames) (id : Nat) : Option String :=
  free.names[id]?

/-- A new name at the end repeats nothing. -/
theorem nodup_concat {names : List String} {name : String} (hn : names.Nodup)
    (hm : name ∉ names) : (names ++ [name]).Nodup := by
  rw [List.nodup_append]
  refine ⟨hn, by simp, ?_⟩
  intro x hx y hy hxy
  rw [List.mem_singleton] at hy
  exact hm (hy ▸ hxy ▸ hx)

/-- The number of a name, and the table with that name: a new name goes to the end. -/
def enter (free : FreeNames) (name : String) : Nat × FreeNames :=
  if hm : name ∈ free.names then (free.names.idxOf name, free)
  else (free.names.length, ⟨free.names ++ [name], nodup_concat free.nodup hm⟩)

/-- Numbers and names belong together one to one. -/
theorem name?_eq_some_iff {free : FreeNames} {id : Nat} {name : String} :
    free.name? id = some name ↔ free.numberOf? name = some id := by
  unfold name? numberOf?
  rw [List.idxOf?_eq_some_iff, List.getElem?_eq_some_iff]
  constructor
  · rintro ⟨hlt, rfl⟩
    refine ⟨hlt, rfl, fun j hj => ?_⟩
    exact List.pairwise_iff_getElem.1 free.nodup j id (Nat.lt_trans hj hlt) hlt hj
  · rintro ⟨hlt, heq, -⟩
    exact ⟨hlt, heq⟩

/-- After a name was entered, its number leads back to it. -/
theorem name?_enter (free : FreeNames) (name : String) :
    (free.enter name).2.name? (free.enter name).1 = some name := by
  unfold enter
  split
  · rename_i hm
    simp [name?, List.getElem?_eq_getElem (List.idxOf_lt_length_iff.2 hm)]
  · simp [name?]

end FreeNames

end WeakHead

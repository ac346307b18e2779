import WeakHead.FreeNames
import WeakHead.IndexTerm
import WeakHead.Term

/-!
# What variables stand for

Two relations that go through terms place by place. `ResolvesTo` says when a term with indices is
what a term with names comes to, if the table tells what the free indices stand for. `SameVariables`
says when two terms with indices stand for the same, each under a table of its own.
-/

namespace WeakHead

/-- Inside the binders `scope`, innermost first, the term with names comes to the term with
indices. -/
inductive Term.ResolvesTo (free : FreeNames) : List String → Term → IndexTerm → Prop where
  /-- A bound variable counts the binders up to the innermost one of its name. -/
  | bound {scope : List String} {name : String} {distance : Nat} :
    scope[distance]? = some name → (∀ inner < distance, scope[inner]? ≠ some name) →
    ResolvesTo free scope (.var name) (.idx distance)
  /-- A free variable counts all binders around it and the names before its own in the table. -/
  | free {scope : List String} {name : String} {number : Nat} :
    name ∉ scope → free.name? number = some name →
    ResolvesTo free scope (.var name) (.idx (number + scope.length))
  | abs {scope : List String} {binder : String} {t : Term} {u : IndexTerm} :
    ResolvesTo free (binder :: scope) t u → ResolvesTo free scope (.abs binder t) (.lam u)
  | app {scope : List String} {t t' : Term} {u u' : IndexTerm} :
    ResolvesTo free scope t u → ResolvesTo free scope t' u' →
    ResolvesTo free scope (.app t t') (.app u u')

/-- Inside `depth` binders, the terms have the same shape, the same bound indices, and free indices
that have the same name, each in its own table. -/
inductive IndexTerm.SameVariables (free free' : FreeNames) :
    (depth : Nat) → IndexTerm → IndexTerm → Prop where
  | bound {depth index : Nat} :
    index < depth → SameVariables free free' depth (.idx index) (.idx index)
  | free {depth number number' : Nat} {name : String} :
    free.name? number = some name → free'.name? number' = some name →
    SameVariables free free' depth (.idx (number + depth)) (.idx (number' + depth))
  | lam {depth : Nat} {t u : IndexTerm} :
    SameVariables free free' (depth + 1) t u → SameVariables free free' depth (.lam t) (.lam u)
  | app {depth : Nat} {t t' u u' : IndexTerm} :
    SameVariables free free' depth t u → SameVariables free free' depth t' u' →
    SameVariables free free' depth (.app t t') (.app u u')

end WeakHead

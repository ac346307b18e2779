/-!
# Terms

The untyped λ-calculus with named variables. Names are any texts; which of them can be read back
from the printed term is a matter of the token rules.
-/

namespace WeakHead

/-- A λ-term with named variables. -/
inductive Term where
  | var (name : String)
  | abs (binder : String) (body : Term)
  | app (fn arg : Term)
deriving DecidableEq, Repr

namespace Term

/-- The term in the source notation: an application has its parentheses, an abstraction has none. -/
def text : Term → String
  | var name => name
  | abs binder body => "λ" ++ binder ++ "." ++ body.text
  | app fn arg => "(" ++ fn.text ++ " " ++ arg.text ++ ")"

/-- The number of constructors. -/
def size : Term → Nat
  | var _ => 1
  | abs _ body => body.size + 1
  | app fn arg => fn.size + arg.size + 1

end Term

end WeakHead

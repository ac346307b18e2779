import WeakHead.Text.Quoted

/-!
# Nodes and faults

A node is one constructor of a term whose parts are the slots of other nodes. The same heap holds
nodes of two kinds of terms: with named variables, and with indices, where an index counts the
binders between a variable and the one that binds it.

A fault is the reason why an operation on a heap stops. Each has one message.
-/

namespace WeakHead

/-- A position in a heap. -/
abbrev Slot := Nat

/-- Indices, and the counters of binders that are compared with them, lie below this bound. -/
def indexBound : Nat := 18446744073709551616

/-- One constructor of a term, with slots for its parts. -/
inductive Node where
  /-- A variable with a name. -/
  | var (name : String)
  /-- An abstraction that binds a name. -/
  | abs (binder : String) (body : Slot)
  /-- An application. -/
  | app (fn arg : Slot)
  /-- A variable with an index. -/
  | idx (index : Nat)
  /-- An abstraction that binds index zero of its body. -/
  | lam (body : Slot)
deriving DecidableEq, Repr, Inhabited

namespace Node

/-- The slots of the parts, left before right. -/
def parts : Node → List Slot
  | var _ => []
  | abs _ body => [body]
  | app fn arg => [fn, arg]
  | idx _ => []
  | lam body => [body]

/-- Abstractions of both kinds bind a variable in their body. -/
def binds : Node → Bool
  | abs _ _ => true
  | lam _ => true
  | _ => false

/-- The node in full, as messages show it. -/
def describe : Node → String
  | var name => "Variable(" ++ Text.quoted name ++ ")"
  | abs binder body =>
    "Abstraction \x7b bound: " ++ Text.quoted binder ++ ", body: NodeId(" ++ toString body ++
      ") \x7d"
  | app fn arg =>
    "Application \x7b lhs: NodeId(" ++ toString fn ++ "), rhs: NodeId(" ++ toString arg ++ ") \x7d"
  | idx index => "IndexVariable(" ++ toString index ++ ")"
  | lam body => "PureAbstraction(NodeId(" ++ toString body ++ "))"

end Node

/-- A slot as it is written in messages and listings. -/
def slotText (slot : Slot) : String :=
  "#" ++ toString slot

/-- The reason why an operation on a heap stops. -/
inductive Fault where
  /-- A slot was read that is not in a heap of `size` nodes. -/
  | dangling (slot : Slot) (size : Nat)
  /-- A slot was to be written that is not in a heap of `size` nodes. -/
  | unwritable (slot : Slot) (size : Nat)
  /-- The root of a graph is not a slot of its heap. -/
  | rootOutside (slot : Slot)
  /-- An index was to be written over a node of another kind. -/
  | notIndex (slot : Slot) (node : Node)
  /-- An index moved by `amount` is no index any more. -/
  | indexOutside (slot : Slot) (index : Nat) (amount : Int)
  /-- The number of binders around a node is no index any more. -/
  | tooManyBinders
  /-- Only indices can be shifted. -/
  | namedInShift (node : Node)
  /-- Only indices can be replaced. -/
  | namedInSubstitution (node : Node)
  /-- Only indices can be read back. -/
  | namedInReadback (node : Node)
  /-- The spine of a term with indices has a named node. -/
  | namedOnSpine (slot : Slot) (node : Node)
  /-- Names were to be resolved where there is an index already. -/
  | resolvedBefore (slot : Slot) (node : Node)
  /-- A path of parts is longer than the heap, so it has come round to where it was. -/
  | endless (slot : Slot)
deriving DecidableEq, Repr

/-- The message of a fault. -/
def Fault.message : Fault → String
  | dangling slot size =>
    "node " ++ slotText slot ++ " is out of range of a store with " ++ toString size ++ " nodes"
  | unwritable slot size =>
    "index out of bounds: the len is " ++ toString size ++ " but the index is " ++ toString slot
  | rootOutside slot => "root " ++ slotText slot ++ " is out of range"
  | notIndex slot node =>
    "node " ++ slotText slot ++ " is not an index variable: " ++ node.describe
  | indexOutside slot index amount =>
    "shifting index " ++ toString index ++ " of node " ++ slotText slot ++ " by " ++
      toString amount ++ " leaves the index range"
  | tooManyBinders => "attempt to add with overflow"
  | namedInShift node =>
    "internal error: entered unreachable code: cannot shift a named node: " ++ node.describe
  | namedInSubstitution node =>
    "internal error: entered unreachable code: cannot substitute into a named node: " ++
      node.describe
  | namedInReadback node =>
    "internal error: entered unreachable code: readback of a named node: " ++ node.describe
  | namedOnSpine slot node =>
    "internal error: entered unreachable code: named node " ++ slotText slot ++
      " in an index tree: " ++ node.describe
  | resolvedBefore slot node =>
    "internal error: entered unreachable code: node " ++ slotText slot ++
      " is already resolved: " ++ node.describe
  | endless slot => "node " ++ slotText slot ++ " is part of itself"

end WeakHead

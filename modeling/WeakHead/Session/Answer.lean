import WeakHead.Heap.Compaction
import WeakHead.Session.Reply

/-!
# Answers

What is written about a term: its tokens, its named and its indexed form, its free variables, and
what reduction makes of it. The log lines of the work stand before what it gives, except that a
reduction which comes to its end is logged once more after its result.
-/

namespace WeakHead.Answer

/-- The explanation of all commands. -/
def helpText : String :=
  "\n".intercalate
    ["term                -- same as :eval term",
     ":tokenize   term    -- show the tokens of the term",
     ":parse      term    -- show the named tree",
     ":resolve    term    -- show the de Bruijn indexed tree",
     ":free       term    -- show the free variable table",
     ":step       term    -- contract the first redex only",
     ":eval       term    -- reduce to weak head normal form",
     ":compact    term    -- reduce, then compact the node store",
     ":help               -- show this message",
     "",
     "Syntax: x | λx.term | \\x.term | (term term ...) | let x = term in term",
     "End a line with \\ to continue on the next one."]

/-- The answer to a call for help. -/
def help : List Output :=
  [.line helpText]

/-- The tokens of a source. -/
def tokens (source : String) : List Output :=
  [.line (" ".intercalate ((Token.scan source).map fun l => l.token.text))]

/-- The term of a source in bracketed form, with names. -/
def named (source : String) : Except Failure (List Output) := do
  let g ← Failure.ofReading (Graph.read source)
  return [.line (← Failure.ofHeap g.bracketed)]

/-- The log of a resolution of names. -/
def resolutionLog (settings : Settings) (free : FreeNames) (occurrences : Array Occurrence) :
    List Output :=
  occurrences.toList.flatMap (fun o =>
    settings.log .debug ("resolved variable name=" ++ o.name ++ " index=" ++ toString o.index ++
      " depth=" ++ toString o.depth)) ++
  settings.log .debug ("name resolution finished free=" ++ toString free.size)

/-- The log of an evaluation. A reduction that reached its end with the last step of its budget does
not look whether it has, so it logs neither end. -/
def evaluationLog (settings : Settings) (e : Evaluation) : List Output :=
  let count := " steps=" ++ toString e.outcome.steps ++ " nodes=" ++ toString e.graph.heap.size
  resolutionLog settings e.free e.occurrences ++
  (e.contracted.toList.mapIdx fun i slot =>
    settings.log .trace
      ("contracted step=" ++ toString (i + 1) ++ " redex=" ++ slotText slot)).flatten ++
  match e.outcome with
  | .reached steps =>
    if settings.stepLimit = some steps then []
    else settings.log .debug ("reached weak head normal form" ++ count)
  | .exhausted _ => settings.log .debug ("step budget exhausted" ++ count)

/-- The term of a source in bracketed form, with indices. -/
def indexed (settings : Settings) (source : String) : Except Failure (List Output) := do
  let r ← Resolved.read source
  let bracketed ← Failure.ofHeap r.graph.bracketed
  return resolutionLog settings r.free r.occurrences ++ [.line bracketed]

/-- What evaluation makes of the term of a source. -/
def result (fuel : Nat) (settings : Settings) (source : String) :
    Except Failure (List Output) := do
  let e ← evaluate fuel source settings.stepLimit
  let bracketed ← Failure.ofHeap e.bracketed
  let readback ← Failure.ofHeap e.readback
  let ending := match e.outcome with
    | .reached steps =>
      settings.log .info ("reached weak head normal form steps=" ++ toString steps)
    | .exhausted steps =>
      [.errLine ("Gave up after " ++ toString steps ++
        " steps without reaching weak head normal form")]
  return evaluationLog settings e ++ [.line bracketed, .line readback] ++ ending

/-- What evaluation makes of the term of a source, after compaction. -/
def compacted (fuel : Nat) (settings : Settings) (source : String) :
    Except Failure (List Output) := do
  let e ← evaluate fuel source settings.stepLimit
  let c ← Failure.ofHeap e.graph.compact
  let bracketed ← Failure.ofHeap c.graph.bracketed
  return evaluationLog settings e ++
    settings.log .info
      ("compacted store live=" ++ toString c.live ++ " freed=" ++ toString c.freed) ++
    [.line bracketed, .line (toString c.live ++ " live nodes, " ++ toString c.freed ++ " freed")]

/-- What the first contraction makes of the term of a source. -/
def oneStep (settings : Settings) (source : String) : Except Failure (List Output) := do
  let r ← Resolved.read source
  let ⟨⟨heap, root⟩, free, occurrences⟩ := r
  let log := resolutionLog settings free occurrences
  match ← Failure.ofHeap (heap.step root) with
  | (_, none) => return log ++ [.line "already in weak head normal form"]
  | (heap, some slot) =>
    let g : Graph := ⟨heap, root⟩
    let bracketed ← Failure.ofHeap g.bracketed
    let readback ← Failure.ofHeap (g.readback free)
    return log ++ [.line bracketed, .line readback] ++
      settings.log .info ("contracted one redex redex=" ++ slotText slot)

/-- The free variables of the term of a source. -/
def freeTable (settings : Settings) (source : String) : Except Failure (List Output) := do
  let r ← Resolved.read source
  let table := r.free.names.mapIdx fun id name => Output.line (toString id ++ ": " ++ name)
  return resolutionLog settings r.free r.occurrences ++
    (if table.isEmpty then [.line "no free variables"] else table)

end WeakHead.Answer

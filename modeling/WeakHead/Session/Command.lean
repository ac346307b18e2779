import WeakHead.Session.Answer

/-!
# Commands of a session

An input that starts with a colon names a command, in full or shortened, and gives it a term; any
other input is a term to evaluate. The command is what stands before the first space, once blanks
after the colon are passed over. An input with a colon and no such space is a command without a
term, and there the blanks after the colon count as part of its name.
-/

namespace WeakHead

/-- What can be done with a term. -/
inductive Command where
  | tokenize
  | parse
  | resolve
  | free
  | step
  | evaluate
  | compact
  | help
  | unknown (word : String)
deriving DecidableEq, Repr

namespace Command

/-- The command with a name. Without a name it is to evaluate. -/
def ofWord (word : String) : Command :=
  if word ∈ ["to", "tokenize"] then tokenize
  else if word ∈ ["p", "parse"] then parse
  else if word ∈ ["r", "resolve"] then resolve
  else if word ∈ ["f", "free"] then free
  else if word ∈ ["s", "step"] then step
  else if word ∈ ["", "e", "eval", "evaluate"] then evaluate
  else if word ∈ ["c", "compact"] then compact
  else if word ∈ ["h", "he", "hel", "help"] then help
  else unknown word

/-- The command word of an input and the text it applies to. -/
def split (input : String) : String × String :=
  match input.toList with
  | ':' :: rest =>
    let trimmed := Text.trimLeft rest
    match trimmed.dropWhile (fun c => c != ' ') with
    | _ :: argument =>
      (String.ofList (trimmed.takeWhile (fun c => c != ' ')), String.ofList argument)
    | [] => (String.ofList rest, "")
  | _ => ("", input)

/-- The answer of a command to the text it applies to. -/
def answer (fuel : Nat) (settings : Settings) (source : String) :
    Command → Except Failure (List Output)
  | tokenize => return Answer.tokens source
  | parse => Answer.named source
  | resolve => Answer.indexed settings source
  | free => Answer.freeTable settings source
  | step => Answer.oneStep settings source
  | evaluate => Answer.result fuel settings source
  | compact => Answer.compacted fuel settings source
  | help => return Answer.help
  | unknown word => return .errLine ("Unknown command " ++ word) :: Answer.help

/-- The reply to an input; nothing if it is blank. -/
def reply (fuel : Nat) (settings : Settings) (input : String) : Reply :=
  if Text.allBlank input.toList then ⟨[], .answered⟩
  else
    let (word, source) := split input
    Reply.of source ((ofWord word).answer fuel settings source)

end Command

end WeakHead

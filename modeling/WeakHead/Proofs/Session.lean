import WeakHead.Proofs.Diagnostic
import WeakHead.Proofs.Session.Answer
import WeakHead.Session.Basic

/-!
# How sessions end

A session replies to its inputs one after the other. A reply is nothing for a blank input, the
answer of the command, or the report of what is wrong with the term it is about. A report needs a
text to point into. Only the whole input is looked at for being blank, so a command about a term
that is given no text at all ends the session; nothing else does.

Main statement: `run_ends_at_lacking_term`.
-/

namespace WeakHead

/-- A session takes the next line after this reply. -/
def Reply.GoesOn (r : Reply) : Prop :=
  r.ending = .answered ∨ r.ending = .refused

namespace Command

variable {fuel budget : Nat} {settings : Settings} {input : String}

/-- The input is a command about a term, and nothing is left of it for the term. -/
structure LacksTerm (input : String) : Prop where
  not_blank : Text.allBlank input.toList = false
  readsTerm : (ofWord (split input).1).ReadsTerm
  empty : (split input).2 = ""

lemma lacksTerm_iff : Text.allBlank input.toList = false ∧ (ofWord (split input).1).ReadsTerm ∧
    (split input).2 = "" ↔ LacksTerm input :=
  ⟨fun ⟨hb, hr, em⟩ => ⟨hb, hr, em⟩, fun lt => ⟨lt.not_blank, lt.readsTerm, lt.empty⟩⟩

instance (input : String) : Decidable (LacksTerm input) :=
  decidable_of_iff _ lacksTerm_iff

/-- What a session can say to an input without coming to an end. -/
inductive Handles (fuel : Nat) (settings : Settings) (input : String) : Reply → Prop where
  | blank : Text.allBlank input.toList = true → Handles fuel settings input ⟨[], .answered⟩
  | answered {outputs} :
    Text.allBlank input.toList = false →
    (ofWord (split input).1).answer fuel settings (split input).2 = .ok outputs →
    Handles fuel settings input ⟨outputs, .answered⟩
  | refused {e text} :
    Text.allBlank input.toList = false → (ofWord (split input).1).ReadsTerm →
    Term.parse (split input).2 = .error e → e.report (split input).2 = .ok text →
    Handles fuel settings input ⟨[.err text], .refused⟩

lemma Handles.goesOn {reply} (hs : Handles fuel settings input reply) : reply.GoesOn := by
  cases hs with
  | blank _ => exact .inl rfl
  | answered _ _ => exact .inl rfl
  | refused _ _ _ _ => exact .inr rfl

lemma reply_of_not_blank (hb : Text.allBlank input.toList = false) :
    reply fuel settings input = Reply.of (split input).2
      ((ofWord (split input).1).answer fuel settings (split input).2) := by
  rw [reply, hb]
  rfl

lemma reply_of_ok {outputs} (hb : Text.allBlank input.toList = false)
    (e : (ofWord (split input).1).answer fuel settings (split input).2 = .ok outputs) :
    reply fuel settings input = ⟨outputs, .answered⟩ := by
  rw [reply_of_not_blank hb, e, Reply.of]

lemma exists_parse_empty : ∃ e, Term.parse "" = .error e ∧ e.start = 0 := by
  have scan : Token.scan "" = [] := by
    rw [Token.scan, String.toList_empty, Token.scanFrom]
  rw [Term.parse, scan]
  exact ⟨_, rfl, rfl⟩

/-- A command about a term that has no text for it breaks down over the report. -/
lemma LacksTerm.reply_eq (lt : LacksTerm input) :
    reply fuel settings input = ⟨[], .crashed⟩ := by
  obtain ⟨e, ep, ez⟩ := exists_parse_empty
  have er : e.report "" = .error .noLines := Diagnostic.report_empty ez
  have ea : (ofWord (split input).1).answer fuel settings "" = .error (.unreadable e) :=
    answer_of_unreadable lt.readsTerm ep
  rw [reply_of_not_blank lt.not_blank, lt.empty, ea, Reply.of, er]

/-- A session can handle any input with a term, if there is a budget and the heaps fit. -/
lemma handles_reply (limit : settings.stepLimit = some budget) (pos : 0 < budget)
    (fits : FitsHeaps (split input).2 budget) (hn : ¬ LacksTerm input) :
    Handles fuel settings input (reply fuel settings input) := by
  cases hb : Text.allBlank input.toList with
  | true =>
    rw [reply, if_pos hb]
    exact .blank hb
  | false =>
    have answered : (∃ outputs,
        (ofWord (split input).1).answer fuel settings (split input).2 = .ok outputs) →
        Handles fuel settings input (reply fuel settings input) := by
      rintro ⟨outputs, ea⟩
      rw [reply_of_ok hb ea]
      exact .answered hb ea
    -- A command about a term answers or refuses its text, and the others answer anything.
    by_cases hr : (ofWord (split input).1).ReadsTerm
    · cases ep : Term.parse (split input).2 with
      | ok t => exact answered (exists_answer limit pos ep fits)
      | error e =>
        have ne : (split input).2 ≠ "" := fun em => hn ⟨hb, hr, em⟩
        obtain ⟨text, et⟩ := Diagnostic.exists_report (.ofSyntaxError e) ne
        have er : e.report (split input).2 = .ok text := et
        rw [reply_of_not_blank hb, answer_of_unreadable hr ep, Reply.of, er]
        exact .refused hb hr ep er
    · exact answered (exists_answer_of_not_readsTerm hr)

end Command

namespace Session

open Command

variable {fuel budget : Nat} {settings : Settings}

/-- The inputs that some lines complete, if `held` waits for the first of them. -/
def inputsFrom (held : String) : List String → List String
  | [] => []
  | line :: rest =>
    match continued? line with
    | some part => inputsFrom (held ++ part ++ "\n") rest
    | none => (held ++ line) :: inputsFrom "" rest

/-- The inputs that the lines of a session complete, in order. -/
def inputs (lines : List String) : List String :=
  inputsFrom "" lines

/-- What is written from here on if these are the remaining inputs, with `last` behind them. -/
def replyAll (fuel : Nat) (settings : Settings) (last : Transcript) : List String → Transcript
  | [] => last
  | input :: rest =>
    let reply := Command.reply fuel settings input
    match reply.ending with
    | .answered | .refused =>
      let t := replyAll fuel settings last rest
      ⟨reply.outputs ++ t.outputs, t.exit⟩
    | .crashed => ⟨reply.outputs, .crashed⟩
    | .unsettled => ⟨reply.outputs, .unsettled⟩

/-- What is written in reply to some inputs, one after the other. -/
def replies (fuel : Nat) (settings : Settings) (inputs : List String) : List Output :=
  inputs.flatMap fun input => (Command.reply fuel settings input).outputs

/-! ### Lines and inputs -/

/-- Only the inputs count that the lines complete. -/
lemma feedAll_eq (last) (s : Session) (lines) :
    s.feedAll fuel last lines = replyAll fuel s.settings last (inputsFrom s.held lines) := by
  induction lines generalizing s with
  | nil => rfl
  | cons line rest ih =>
    cases ec : continued? line with
    | some part =>
      have ef : s.feed fuel line = (⟨s.settings, s.held ++ part ++ "\n"⟩, ⟨[], .answered⟩) := by
        rw [feed, accept, ec]
      rw [feedAll, ef, inputsFrom, ec]
      exact ih _
    | none =>
      have ef : s.feed fuel line =
          (⟨s.settings, ""⟩, Command.reply fuel s.settings (s.held ++ line)) := by
        rw [feed, accept, ec]
      rw [feedAll, ef, inputsFrom, ec]
      cases he : (Command.reply fuel s.settings (s.held ++ line)).ending <;>
        simp only [replyAll, he, ih]

lemma run_eq (lines) :
    run fuel settings lines =
      let t := replyAll fuel settings ⟨farewell, .success⟩ (inputs lines)
      ⟨greeting ++ t.outputs, t.exit⟩ := by
  rw [run, runUntil, feedAll_eq]
  rfl

lemma replyAll_cons {input : String} (last rest)
    (go : (Command.reply fuel settings input).GoesOn) :
    replyAll fuel settings last (input :: rest) =
      ⟨(Command.reply fuel settings input).outputs ++ (replyAll fuel settings last rest).outputs,
        (replyAll fuel settings last rest).exit⟩ := by
  cases go with
  | inl e => simp only [replyAll, e]
  | inr e => simp only [replyAll, e]

/-- Inputs after which a session goes on are replied to one after the other. -/
lemma replyAll_append_of_goesOn {before : List String} (last rest)
    (go : ∀ input ∈ before, (Command.reply fuel settings input).GoesOn) :
    replyAll fuel settings last (before ++ rest) =
      ⟨replies fuel settings before ++ (replyAll fuel settings last rest).outputs,
        (replyAll fuel settings last rest).exit⟩ := by
  induction before with
  | nil => rfl
  | cons input before ih =>
    obtain ⟨hi, go⟩ := List.forall_mem_cons.1 go
    rw [List.cons_append, replyAll_cons last _ hi, ih go, replies, replies, List.flatMap_cons,
      List.append_assoc]

/-- Inputs that are handled are replied to, and the session goes on. -/
lemma replyAll_append {before : List String} (last rest)
    (hs : ∀ input ∈ before, Handles fuel settings input (Command.reply fuel settings input)) :
    replyAll fuel settings last (before ++ rest) =
      ⟨replies fuel settings before ++ (replyAll fuel settings last rest).outputs,
        (replyAll fuel settings last rest).exit⟩ :=
  replyAll_append_of_goesOn last rest fun input hm => (hs input hm).goesOn

/-! ### The end of a session -/

/-- An input breaks a session down exactly if it is a command about a term and nothing is left of it
for the term. Up to the first such input all inputs are handled in order; a session without one ends
with the farewell. -/
theorem run_ends_at_lacking_term {lines : List String} (limit : settings.stepLimit = some budget)
    (pos : 0 < budget)
    (fits : ∀ input ∈ inputs lines, FitsHeaps (split input).2 budget) :
    (∀ input ∈ inputs lines,
      (LacksTerm input → Command.reply fuel settings input = ⟨[], .crashed⟩) ∧
      (¬ LacksTerm input → Handles fuel settings input (Command.reply fuel settings input))) ∧
    ((∀ input ∈ inputs lines, ¬ LacksTerm input) →
      run fuel settings lines =
        ⟨greeting ++ replies fuel settings (inputs lines) ++ farewell, .success⟩) ∧
    ∀ before input after, inputs lines = before ++ input :: after →
      (∀ i ∈ before, ¬ LacksTerm i) → LacksTerm input →
      run fuel settings lines = ⟨greeting ++ replies fuel settings before, .crashed⟩ := by
  have handled : ∀ input ∈ inputs lines, ¬ LacksTerm input →
      Handles fuel settings input (Command.reply fuel settings input) := fun input hm hn =>
    handles_reply limit pos (fits input hm) hn
  refine ⟨fun input hm => ⟨fun lt => lt.reply_eq, handled input hm⟩, fun hn => ?_,
    fun before input after ei hn lt => ?_⟩
  · have e := replyAll_append ⟨farewell, .success⟩ [] fun input hm => handled input hm (hn input hm)
    rw [List.append_nil] at e
    rw [run_eq, e, List.append_assoc]
    rfl
  · have e := replyAll_append ⟨farewell, .success⟩ (input :: after) fun i hm =>
      handled i (ei ▸ List.mem_append_left _ hm) (hn i hm)
    rw [run_eq, ei, e, replyAll, lt.reply_eq]
    simp

/-- A term on two lines is evaluated; after a command without its term nothing is. -/
theorem run_ends_at_lacking_term_parse :
    run 0 ⟨some 1, none, .warn⟩ ["(λx.\\", "x y)", ":parse", "z"] =
      ⟨greeting ++ replies 0 ⟨some 1, none, .warn⟩ ["(λx.\nx y)"], .crashed⟩ := by
  have ei : inputs ["(λx.\\", "x y)", ":parse", "z"] = ["(λx.\nx y)", ":parse", "z"] := by
    decide +kernel
  have small : ∀ input ∈ inputs ["(λx.\\", "x y)", ":parse", "z"],
      (Term.parse (split input).2).toOption.all (fun t => 2 * t.size < heapBound) = true := by
    decide +kernel
  obtain ⟨-, -, crash⟩ := @run_ends_at_lacking_term 0 1 ⟨some 1, none, .warn⟩ _ rfl Nat.one_pos
    fun input hm => fitsHeaps_one (small input hm)
  exact crash ["(λx.\nx y)"] ":parse" ["z"] ei (by decide +kernel) (by decide +kernel)

/-- With the settings that hold if nothing is chosen, a command without its term ends the
session. -/
theorem run_default_crashed : run 0 .default [":p"] = ⟨greeting, .crashed⟩ := by
  decide +kernel

end Session

end WeakHead

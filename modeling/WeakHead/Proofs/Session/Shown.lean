import WeakHead.Proofs.Session
import WeakHead.Proofs.Token.Blanks
import WeakHead.Proofs.Token.Spacing

/-!
# What a session shows

What goes to the output stream is shown. A command that takes a text shows the same for two texts
that are the same but for their blanks, and ends in the same way; only the reports on the error
stream may differ. The call for help and a word that is no command show the explanation of all
commands, and no command that takes a text shows that.
-/

namespace WeakHead

open Text (isBlank allBlank SameButBlanks)

/-! ### Replies that show the same -/

/-- The replies show the same and end in the same way. -/
structure Reply.ShowsSame (r r' : Reply) : Prop where
  shown : Output.outText r.outputs = Output.outText r'.outputs
  ending : r.ending = r'.ending

lemma Reply.ShowsSame.refl (r : Reply) : r.ShowsSame r :=
  ⟨rfl, rfl⟩

variable {source source' : String}

/-- The report of an error is not shown. -/
lemma Reply.showsSame_of (sb : SameButBlanks source.toList source'.toList) (answer) :
    (Reply.of source answer).ShowsSame (.of source' answer) := by
  cases answer with
  | ok outputs => exact ⟨rfl, rfl⟩
  | error failure =>
    cases failure with
    | broken fault => exact ⟨rfl, rfl⟩
    | unsettled => exact ⟨rfl, rfl⟩
    | unreadable e =>
      by_cases em : source = ""
      · subst em
        cases String.toList_eq_nil_iff.1 (List.forall₂_nil_left_iff.1 sb)
        exact ⟨rfl, rfl⟩
      · have em' : source' ≠ "" := by
          rintro rfl
          exact em (String.toList_eq_nil_iff.1 (List.forall₂_nil_right_iff.1 sb))
        obtain ⟨text, et⟩ := Diagnostic.exists_report (.ofSyntaxError e) em
        obtain ⟨text', et'⟩ := Diagnostic.exists_report (.ofSyntaxError e) em'
        have er : e.report source = .ok text := et
        have er' : e.report source' = .ok text' := et'
        rw [Reply.of, er, Reply.of, er']
        exact ⟨rfl, rfl⟩

namespace Session

/-- Sessions whose replies show the same one by one show the same. -/
lemma replyAll_of_showsSame {fuel settings inputs inputs'} (last)
    (ss : List.Forall₂ (fun input input' =>
      (Command.reply fuel settings input).ShowsSame (Command.reply fuel settings input'))
      inputs inputs') :
    Output.outText (replyAll fuel settings last inputs).outputs =
        Output.outText (replyAll fuel settings last inputs').outputs ∧
      (replyAll fuel settings last inputs).exit = (replyAll fuel settings last inputs').exit := by
  induction ss with
  | nil => exact ⟨rfl, rfl⟩
  | @cons input input' _ _ h _ ih =>
    obtain ⟨es, ee⟩ := h
    cases he : (Command.reply fuel settings input).ending <;>
      simp only [replyAll, ← ee, he, Output.outText_append, es, ih, and_self]

/-- A session shows its greeting and then what the replies to its inputs show. -/
lemma outText_run {fuel settings} (lines) : Output.outText (run fuel settings lines).outputs =
    Output.outText greeting ++
      Output.outText (replyAll fuel settings ⟨farewell, .success⟩ (inputs lines)).outputs := by
  rw [run_eq]
  exact Output.outText_append _ _

/-- Sessions whose inputs get replies that show the same show the same and exit alike. -/
lemma run_of_showsSame {fuel settings lines lines'}
    (ss : List.Forall₂ (fun input input' =>
      (Command.reply fuel settings input).ShowsSame (Command.reply fuel settings input'))
      (inputs lines) (inputs lines')) :
    Output.outText (run fuel settings lines).outputs =
        Output.outText (run fuel settings lines').outputs ∧
      (run fuel settings lines).exit = (run fuel settings lines').exit := by
  obtain ⟨es, ee⟩ := replyAll_of_showsSame ⟨farewell, .success⟩ ss
  rw [outText_run, outText_run, es, run_eq, run_eq]
  exact ⟨rfl, ee⟩

end Session

/-! ### Commands that take a text -/

namespace Command

variable {c : Command} {fuel : Nat} {settings : Settings} {input : String}

/-- The commands that are about a text, not all of which read it as a term. -/
def TakesText (c : Command) : Prop :=
  c = tokenize ∨ c.ReadsTerm

instance (c : Command) : Decidable c.TakesText :=
  inferInstanceAs (Decidable (_ ∨ _))

lemma not_takesText_unknown (word) : ¬ (unknown word).TakesText := by
  simp [TakesText, ReadsTerm]

/-- No command makes a difference between blanks. -/
lemma answer_eq (sb : SameButBlanks source.toList source'.toList) :
    c.answer fuel settings source' = c.answer fuel settings source := by
  -- All that a command makes of its text it makes of the lexemes or of the term, in four ways.
  have eg : Graph.read source' = Graph.read source := by
    rw [Graph.read, Term.parse_eq sb, Graph.read]
  have er : Resolved.read source' = Resolved.read source := by
    rw [Resolved.read, eg, Resolved.read]
  have ee (budget) :
      WeakHead.evaluate fuel source' budget = WeakHead.evaluate fuel source budget := by
    rw [WeakHead.evaluate, er, WeakHead.evaluate]
  cases c with
  | tokenize => simp only [answer, Answer.tokens, Token.scan_eq sb]
  | parse => simp only [answer, Answer.named, eg]
  | resolve => simp only [answer, Answer.indexed, er]
  | free => simp only [answer, Answer.freeTable, er]
  | step => simp only [answer, Answer.oneStep, er]
  | evaluate => simp only [answer, Answer.result, ee]
  | compact => simp only [answer, Answer.compacted, ee]
  | help => rfl
  | unknown word => rfl

/-- All other commands show the explanation. -/
lemma reply_of_not_takesText (hb : allBlank input.toList = false)
    (nt : ¬ (ofWord (split input).1).TakesText) :
    Output.outText (reply fuel settings input).outputs = Answer.helpText ++ "\n" ∧
      (reply fuel settings input).ending = .answered := by
  have es : Output.outText Answer.help = Answer.helpText ++ "\n" := by
    show Answer.helpText ++ "\n" ++ "" = _
    rw [String.append_empty]
  rw [reply_of_not_blank hb]
  cases ec : ofWord (split input).1 with
  | help => exact ⟨es, rfl⟩
  | unknown word => exact ⟨es, rfl⟩
  | _ => exact absurd (by simp [ec, TakesText, ReadsTerm]) nt

end Command

/-! ### What else is shown -/

namespace Output

variable {settings : Settings}

/-- What goes to the log is not shown. -/
@[simp] lemma outText_log (level text) : outText (settings.log level text) = "" := by
  rw [Settings.log]
  split <;> rfl

/-- Where no part shows anything, the whole shows nothing. -/
lemma outText_flatten {parts : List (List Output)} (h : ∀ part ∈ parts, outText part = "") :
    outText parts.flatten = "" := by
  induction parts with
  | nil => rfl
  | cons part parts ih =>
    obtain ⟨hp, h⟩ := List.forall_mem_cons.1 h
    rw [List.flatten_cons, outText_append, hp, ih h, String.append_empty]

/-- The log of a resolution is not shown. -/
@[simp] lemma outText_resolutionLog (free occurrences) :
    outText (Answer.resolutionLog settings free occurrences) = "" := by
  rw [Answer.resolutionLog, List.flatMap, outText_append, outText_log, outText_flatten,
    String.append_empty]
  simp

/-- The log of an evaluation is not shown. -/
@[simp] lemma outText_evaluationLog (e : Evaluation) :
    outText (Answer.evaluationLog settings e) = "" := by
  have steps : outText (e.contracted.toList.mapIdx fun i slot =>
      settings.log .trace ("contracted step=" ++ toString (i + 1) ++ " redex=" ++
        slotText slot)).flatten = "" := by
    refine outText_flatten fun part hp => ?_
    obtain ⟨i, hi, rfl⟩ := List.mem_mapIdx.1 hp
    exact outText_log _ _
  rw [Answer.evaluationLog, outText_append, outText_append, outText_resolutionLog, steps]
  split
  · split
    · rfl
    · simp
  · simp

end Output

/-- A term with indices begins with a digit or a parenthesis. -/
lemma IndexTerm.exists_bracketed_eq (t : IndexTerm) :
    ∃ c cs, t.bracketed.toList = c :: cs ∧ c ≠ 't' := by
  cases t with
  | idx index =>
    have el : (idx index).bracketed.toList = Nat.toDigits 10 index := Nat.toList_repr
    obtain ⟨c, cs, e⟩ := List.exists_cons_of_ne_nil (@Nat.toDigits_ne_nil index 10)
    have hc : c.isDigit = true :=
      Nat.isDigit_of_mem_toDigits (by decide) (by decide) (e ▸ List.mem_cons_self)
    refine ⟨c, cs, el.trans e, ?_⟩
    rintro rfl
    exact absurd hc (by decide)
  | lam body => exact ⟨'(', _, by simp only [bracketed, String.toList_append]; rfl, by decide⟩
  | app fn arg => exact ⟨'(', _, by simp only [bracketed, String.toList_append]; rfl, by decide⟩

namespace Answer

lemma exists_helpText_eq : ∃ more, helpText = "t" ++ more ∧ '\n' ∈ more.toList := by
  obtain ⟨more, e⟩ : ∃ more,
      helpText = "term                -- same as :eval term" ++ "\n" ++ more :=
    ⟨_, String.intercalate_cons_cons⟩
  have first : "term                -- same as :eval term" =
      "t" ++ "erm                -- same as :eval term" := by decide +kernel
  rw [first, String.append_assoc, String.append_assoc] at e
  exact ⟨_, e, by simp⟩

lemma lineFeed_mem_helpText : '\n' ∈ helpText.toList := by
  obtain ⟨more, e, hm⟩ := exists_helpText_eq
  rw [e, String.toList_append]
  exact List.mem_append_right _ hm

/-- Nothing that does not begin as the explanation does is the explanation. -/
lemma append_ne_help {text rest : String} (e : ∃ c cs, text.toList = c :: cs ∧ c ≠ 't') :
    text ++ rest ≠ helpText ++ "\n" := by
  obtain ⟨c, cs, e, ne⟩ := e
  obtain ⟨more, eh, -⟩ := exists_helpText_eq
  intro h
  have el := congrArg String.toList h
  rw [eh, String.append_assoc, String.toList_append, e, String.toList_append] at el
  exact ne (List.cons.inj el).1

/-- The explanation has several lines. -/
lemma spaced_ne_help (source : String) : Token.spaced source ++ "\n" ≠ helpText ++ "\n" := by
  intro h
  have e : Token.spaced source = helpText := (String.append_left_inj _).1 h
  have hs := Token.eq_space_of_mem_spaced (e ▸ lineFeed_mem_helpText) (by decide)
  exact absurd hs (by decide)

lemma bracketed_ne_help {t : Term} (lx : t.AllLexable) :
    t.bracketed ++ "\n" ≠ helpText ++ "\n" := by
  cases t with
  | var name =>
    intro h
    have e : name = helpText := (String.append_left_inj _).1 h
    exact absurd (lx.inside '\n' (e ▸ lineFeed_mem_helpText)) (by decide)
  | abs binder body =>
    exact append_ne_help
      ⟨'(', _, by simp only [Term.bracketed, String.toList_append]; rfl, by decide⟩
  | app fn arg =>
    exact append_ne_help
      ⟨'(', _, by simp only [Term.bracketed, String.toList_append]; rfl, by decide⟩

variable {fuel : Nat} {settings : Settings} {outputs : List Output} {t : Term}

lemma line_ne_help {log more : List Output} {text} (el : Output.outText log = "")
    (e : ∃ c cs, text.toList = c :: cs ∧ c ≠ 't') :
    Output.outText (log ++ .line text :: more) ≠ helpText ++ "\n" := by
  rw [Output.outText_append, el, String.empty_append]
  show text ++ "\n" ++ Output.outText more ≠ _
  rw [String.append_assoc]
  exact append_ne_help e

lemma indexed_ne_help (ep : Term.parse source = .ok t) (e : indexed settings source = .ok outputs) :
    Output.outText outputs ≠ helpText ++ "\n" := by
  obtain ⟨r, er, e⟩ := bind_eq_ok_iff.1 e
  obtain ⟨r', er', st⟩ := Resolved.read_ok ep
  cases er.symm.trans er'
  obtain ⟨S, tr⟩ := st.tree
  obtain ⟨text, eb, e⟩ := bind_eq_ok_iff.1 e
  cases e
  cases (Failure.ofHeap_eq_ok_iff.1 eb).symm.trans tr.bracketed_ok
  exact line_ne_help (Output.outText_resolutionLog _ _) (IndexTerm.exists_bracketed_eq _)

lemma freeTable_ne_help (e : freeTable settings source = .ok outputs) :
    Output.outText outputs ≠ helpText ++ "\n" := by
  obtain ⟨r, er, e⟩ := bind_eq_ok_iff.1 e
  cases e
  cases r.free.names with
  | nil => exact line_ne_help (Output.outText_resolutionLog _ _) ⟨'n', _, rfl, by decide⟩
  | cons name names =>
    simp only [List.mapIdx_cons, List.isEmpty_cons, Bool.false_eq_true, if_false]
    refine line_ne_help (Output.outText_resolutionLog _ _)
      ⟨'0', (": " ++ name).toList, ?_, by decide⟩
    rw [String.append_assoc, String.toList_append]
    rfl

lemma oneStep_ne_help (ep : Term.parse source = .ok t)
    (e : oneStep settings source = .ok outputs) :
    Output.outText outputs ≠ helpText ++ "\n" := by
  obtain ⟨r, er, e⟩ := bind_eq_ok_iff.1 e
  obtain ⟨r', er', st⟩ := Resolved.read_ok ep
  cases er.symm.trans er'
  obtain ⟨⟨heap, contracted⟩, es, e⟩ := bind_eq_ok_iff.1 e
  have ea : r.graph.act .step = .ok ⟨heap, r.graph.root⟩ :=
    map_eq_ok_iff.2 ⟨_, Failure.ofHeap_eq_ok_iff.1 es, rfl⟩
  obtain ⟨S, tr⟩ := Graph.IsTreeOf.act st.tree ea
  cases contracted with
  | none =>
    cases e
    exact line_ne_help (Output.outText_resolutionLog _ _) ⟨'a', _, rfl, by decide⟩
  | some slot =>
    obtain ⟨text, eb, e⟩ := bind_eq_ok_iff.1 e
    obtain ⟨readback, er, e⟩ := bind_eq_ok_iff.1 e
    cases e
    cases (Failure.ofHeap_eq_ok_iff.1 eb).symm.trans tr.bracketed_ok
    rw [List.append_assoc]
    exact line_ne_help (Output.outText_resolutionLog _ _) (IndexTerm.exists_bracketed_eq _)

lemma result_ne_help (ep : Term.parse source = .ok t)
    (e : result fuel settings source = .ok outputs) :
    Output.outText outputs ≠ helpText ++ "\n" := by
  obtain ⟨ev, ee, e⟩ := bind_eq_ok_iff.1 e
  obtain ⟨u, S, tr⟩ := Evaluation.exists_tree ep ee
  obtain ⟨text, eb, e⟩ := bind_eq_ok_iff.1 e
  obtain ⟨readback, er, e⟩ := bind_eq_ok_iff.1 e
  cases e
  cases (Failure.ofHeap_eq_ok_iff.1 eb).symm.trans tr.bracketed_ok
  rw [List.append_assoc]
  exact line_ne_help (Output.outText_evaluationLog _) (IndexTerm.exists_bracketed_eq _)

lemma compacted_ne_help (ep : Term.parse source = .ok t)
    (e : compacted fuel settings source = .ok outputs) :
    Output.outText outputs ≠ helpText ++ "\n" := by
  obtain ⟨ev, ee, e⟩ := bind_eq_ok_iff.1 e
  obtain ⟨u, S, tr⟩ := Evaluation.exists_tree ep ee
  obtain ⟨c, ec, e⟩ := bind_eq_ok_iff.1 e
  obtain ⟨c', ec', -, -, tr', -⟩ := tr.compact_ok
  cases (Failure.ofHeap_eq_ok_iff.1 ec).symm.trans ec'
  obtain ⟨text, eb, e⟩ := bind_eq_ok_iff.1 e
  cases e
  cases (Failure.ofHeap_eq_ok_iff.1 eb).symm.trans tr'.bracketed_ok
  refine line_ne_help ?_ (IndexTerm.exists_bracketed_eq _)
  simp

end Answer

namespace Command

variable {c : Command} {fuel : Nat} {settings : Settings} {input : String} {outputs : List Output}

/-- No answer of a command that takes a text is the explanation. -/
lemma outText_answer_ne (tt : c.TakesText) (e : c.answer fuel settings source = .ok outputs) :
    Output.outText outputs ≠ Answer.helpText ++ "\n" := by
  cases tt with
  | inl et =>
    subst et
    cases e
    show Token.spaced source ++ "\n" ++ "" ≠ _
    rw [String.append_empty]
    exact Answer.spaced_ne_help source
  | inr hr =>
    cases ep : Term.parse source with
    | error error => cases (answer_of_unreadable hr ep).symm.trans e
    | ok t =>
      cases c with
      | parse =>
        cases (Answer.named_ok ep).symm.trans e
        show t.bracketed ++ "\n" ++ "" ≠ _
        rw [String.append_empty]
        exact Answer.bracketed_ne_help (Term.allLexable_of_parse ep)
      | resolve => exact Answer.indexed_ne_help ep e
      | free => exact Answer.freeTable_ne_help e
      | step => exact Answer.oneStep_ne_help ep e
      | evaluate => exact Answer.result_ne_help ep e
      | compact => exact Answer.compacted_ne_help ep e
      | _ => simp [ReadsTerm] at hr

lemma outText_of_error {failure} :
    Output.outText (Reply.of source (.error failure)).outputs = "" := by
  cases failure with
  | broken fault => rfl
  | unsettled => rfl
  | unreadable e =>
    rw [Reply.of]
    split <;> rfl

/-- The reply to a command that takes a text does not show the explanation. -/
lemma outText_reply_ne (hb : allBlank input.toList = false)
    (tt : (ofWord (split input).1).TakesText) :
    Output.outText (reply fuel settings input).outputs ≠ Answer.helpText ++ "\n" := by
  rw [reply_of_not_blank hb]
  cases ea : (ofWord (split input).1).answer fuel settings (split input).2 with
  | ok outputs => exact outText_answer_ne tt ea
  | error failure =>
    rw [outText_of_error]
    intro h
    have el := congrArg String.toList h
    rw [String.toList_append] at el
    exact absurd el (by simp)

end Command

/-- Nothing is written in a reply after which a session does not go on. -/
lemma Reply.outputs_of_not_goesOn {answer} (hn : ¬ (Reply.of source answer).GoesOn) :
    (Reply.of source answer).outputs = [] := by
  cases answer with
  | ok outputs => exact absurd (.inl rfl) hn
  | error failure =>
    cases failure with
    | broken fault => rfl
    | unsettled => rfl
    | unreadable e =>
      rw [Reply.of] at hn ⊢
      cases er : e.report source with
      | ok text =>
        rw [er] at hn
        exact absurd (.inr rfl) hn
      | error _ => rfl

/-- A session ends with a reply after which it does not go on. -/
lemma Session.replyAll_of_not_goesOn {fuel settings} {input : String} (last rest)
    (hn : ¬ (Command.reply fuel settings input).GoesOn) :
    (replyAll fuel settings last (input :: rest)).outputs =
      (Command.reply fuel settings input).outputs := by
  obtain ⟨na, nr⟩ := not_or.1 hn
  cases he : (Command.reply fuel settings input).ending with
  | answered => exact absurd he na
  | refused => exact absurd he nr
  | crashed => simp only [replyAll, he]
  | unsettled => simp only [replyAll, he]

/-- A command that takes a text and one that takes none make sessions that show different things,
even if the first one ends its session. -/
lemma Session.outText_replyAll_ne {fuel settings} {input input' : String}
    (hb : allBlank input.toList = false) (hb' : allBlank input'.toList = false)
    (tt : (Command.ofWord (Command.split input).1).TakesText)
    (nt : ¬ (Command.ofWord (Command.split input').1).TakesText) (last rest) :
    Output.outText (replyAll fuel settings last (input :: rest)).outputs ≠
      Output.outText (replyAll fuel settings last (input' :: rest)).outputs := by
  obtain ⟨es, ee⟩ := @Command.reply_of_not_takesText fuel settings _ hb' nt
  rw [replyAll_cons last rest (.inl ee), Output.outText_append, es]
  by_cases go : (Command.reply fuel settings input).GoesOn
  · rw [replyAll_cons last rest go, Output.outText_append]
    intro h
    exact Command.outText_reply_ne hb tt ((String.append_left_inj _).1 h)
  · have en : (Command.reply fuel settings input).outputs = [] := by
      rw [Command.reply_of_not_blank hb] at go ⊢
      exact Reply.outputs_of_not_goesOn go
    rw [replyAll_of_not_goesOn last rest go, en]
    intro h
    have el := congrArg String.toList h
    rw [String.toList_append, String.toList_append] at el
    exact absurd el (by simp [Output.outText])

end WeakHead

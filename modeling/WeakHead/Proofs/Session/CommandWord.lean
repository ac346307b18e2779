import WeakHead.Proofs.Session

/-!
# Blanks before the word of a command

Blanks between the colon and the word of a command are passed over if a space stands behind the
word. Without that space they count as a part of the word, and as no command has a name with blanks
in it, the command is unknown then.

Main statement: `reply_of_blanks_before_word`.
-/

namespace WeakHead

open Text (isBlank allBlank trimLeft)

namespace Command

/-- A word for a command: there are characters in it, and none of them is a blank. -/
structure IsWord (word : String) : Prop where
  ne_empty : word ≠ ""
  plain : ∀ c ∈ word.toList, isBlank c = false

lemma isWord_iff {word} :
    word ≠ "" ∧ word.toList.all (fun c => !isBlank c) = true ↔ IsWord word := by
  simp only [List.all_eq_true, Bool.not_eq_true']
  exact ⟨fun ⟨ne, plain⟩ => ⟨ne, plain⟩, fun iw => ⟨iw.ne_empty, iw.plain⟩⟩

instance (word : String) : Decidable (IsWord word) :=
  decidable_of_iff _ isWord_iff

variable {blanks word : String} {fuel : Nat} {settings : Settings}

/-! ### The ways to split -/

section

variable {input : String} {rest before argument : List Char}

lemma split_of_ne_colon (hn : ∀ rest, input.toList ≠ ':' :: rest) : split input = ("", input) := by
  rw [split]
  split
  · next rest e => exact absurd e (hn rest)
  · rfl

/-- A line without a space behind the colon is all word, the blanks before it included. -/
lemma split_of_notMem (e : input.toList = ':' :: rest) (hn : ' ' ∉ trimLeft rest) :
    split input = (String.ofList rest, "") := by
  have ed : (trimLeft rest).dropWhile (fun c => c != ' ') = [] :=
    List.dropWhile_eq_nil_iff.2 fun c hc => bne_iff_ne.2 fun ec => hn (ec ▸ hc)
  simp only [split, e, ed]

/-- The first space behind the blanks ends the word. -/
lemma split_of_trimLeft_eq (e : input.toList = ':' :: rest)
    (et : trimLeft rest = before ++ ' ' :: argument) (hn : ' ' ∉ before) :
    split input = (String.ofList before, String.ofList argument) := by
  have hw : ∀ c ∈ before, (c != ' ') = true := fun c hc => bne_iff_ne.2 fun ec => hn (ec ▸ hc)
  have en : (' ' != ' ') = false := by decide
  simp only [split, e, et, List.dropWhile_append_of_pos hw, List.takeWhile_append_of_pos hw,
    List.dropWhile_cons, List.takeWhile_cons, en, Bool.false_eq_true, if_false, List.append_nil]

end

/-- The blanks before a word are left out. -/
lemma IsWord.trimLeft_eq (iw : IsWord word) (hb : allBlank blanks.toList = true) (rest) :
    trimLeft (blanks.toList ++ (word.toList ++ rest)) = word.toList ++ rest := by
  obtain ⟨c, cs, e⟩ := List.exists_cons_of_ne_nil (mt String.toList_eq_nil_iff.1 iw.ne_empty)
  have hc : isBlank c = false := iw.plain c (e ▸ List.mem_cons_self)
  rw [trimLeft, List.dropWhile_append_of_pos (List.all_eq_true.1 hb), e, List.cons_append,
    List.dropWhile_cons_of_neg (by simp [hc])]

lemma IsWord.space_notMem (iw : IsWord word) : ' ' ∉ word.toList :=
  fun hm => absurd (iw.plain _ hm) (by decide)

/-- With an argument behind it, a word is told apart from the blanks before it. -/
lemma IsWord.split_argument (iw : IsWord word) (hb : allBlank blanks.toList = true)
    (argument : String) : split (":" ++ blanks ++ word ++ " " ++ argument) = (word, argument) := by
  have e : (":" ++ blanks ++ word ++ " " ++ argument).toList =
      ':' :: (blanks.toList ++ (word.toList ++ ' ' :: argument.toList)) := by simp
  have es := split_of_trimLeft_eq e (iw.trimLeft_eq hb _) iw.space_notMem
  rwa [String.ofList_toList, String.ofList_toList] at es

lemma IsWord.split_bare (iw : IsWord word) (hb : allBlank blanks.toList = true) :
    split (":" ++ blanks ++ word) = (blanks ++ word, "") := by
  have e : (":" ++ blanks ++ word).toList = ':' :: (blanks.toList ++ (word.toList ++ [])) := by simp
  have hn : ' ' ∉ trimLeft (blanks.toList ++ (word.toList ++ [])) := by
    rw [iw.trimLeft_eq hb, List.append_nil]
    exact iw.space_notMem
  rw [split_of_notMem e hn]
  simp

lemma IsWord.split_alone (iw : IsWord word) : split (":" ++ word) = (word, "") :=
  @IsWord.split_bare "" word iw rfl

/-! ### Names with blanks -/

/-- No command has a name with a blank in it. -/
lemma ofWord_of_blank {c} (hm : c ∈ word.toList) (hc : isBlank c = true) :
    ofWord word = unknown word := by
  have hn : ∀ names : List String,
      (names.all fun name => name.toList.all fun d => !isBlank d) = true → word ∉ names := by
    intro names plain hw
    have hp := List.all_eq_true.1 (List.all_eq_true.1 plain word hw) c hm
    simp [hc] at hp
  simp (disch := decide) only [ofWord, hn, if_false]

lemma eq_of_ofWord_unknown {w} (e : ofWord word = unknown w) : w = word := by
  unfold ofWord at e
  split_ifs at e
  cases e
  rfl

/-! ### Replies -/

lemma allBlank_colon (rest : String) : allBlank (":" ++ rest).toList = false := by
  have hc : isBlank ':' = false := by decide
  simp [allBlank, hc]

/-- The complaint about an unknown word is all that comes to the error stream. -/
lemma errText_unknown (word : String) :
    Output.errText (.errLine ("Unknown command " ++ word) :: Answer.help) =
      "Unknown command " ++ word ++ "\n" := by
  show "Unknown command " ++ word ++ "\n" ++ "" = _
  rw [String.append_empty]

/-- After a word alone there is nothing on the error stream but the complaint about the word. -/
lemma IsWord.errText_reply (iw : IsWord word) (fuel settings) :
    Output.errText (reply fuel settings (":" ++ word)).outputs = "" ∨
      Output.errText (reply fuel settings (":" ++ word)).outputs =
        "Unknown command " ++ word ++ "\n" := by
  have hb := allBlank_colon word
  have es := iw.split_alone
  -- A command about a term breaks down without a text for it, and the others can be answered.
  by_cases hr : (ofWord word).ReadsTerm
  · have lt : LacksTerm (":" ++ word) := ⟨hb, by rwa [es], by rw [es]⟩
    rw [lt.reply_eq]
    exact .inl rfl
  · rw [reply_of_not_blank hb, es]
    cases ew : ofWord word with
    | tokenize => exact .inl rfl
    | help => exact .inl rfl
    | unknown w =>
      cases eq_of_ofWord_unknown ew
      exact .inr (errText_unknown word)
    | _ => exact absurd (by simp [ew, ReadsTerm]) hr

/-- A word behind blanks, with no argument, is an unknown command. -/
lemma IsWord.reply_of_blanks (iw : IsWord word) (hb : allBlank blanks.toList = true)
    (ne : blanks ≠ "") (fuel settings) : reply fuel settings (":" ++ blanks ++ word) =
      ⟨.errLine ("Unknown command " ++ (blanks ++ word)) :: Answer.help, .answered⟩ := by
  obtain ⟨c, cs, ec⟩ := List.exists_cons_of_ne_nil (mt String.toList_eq_nil_iff.1 ne)
  have hm : c ∈ blanks.toList := ec ▸ List.mem_cons_self
  have eu : ofWord (blanks ++ word) = unknown (blanks ++ word) :=
    ofWord_of_blank (String.toList_append ▸ List.mem_append_left _ hm)
      (List.all_eq_true.1 hb c hm)
  rw [reply_of_not_blank (String.append_assoc ▸ allBlank_colon (blanks ++ word)),
    iw.split_bare hb, eu]
  rfl

/-- Blanks before the word of a command make no difference if a space stands behind it. If none
does, they make the command unknown, whatever it is without them. -/
theorem reply_of_blanks_before_word (hb : allBlank blanks.toList = true) (iw : IsWord word)
    (fuel settings) :
    (∀ argument, split (":" ++ blanks ++ word ++ " " ++ argument) = (word, argument) ∧
      split (":" ++ word ++ " " ++ argument) = (word, argument) ∧
      reply fuel settings (":" ++ blanks ++ word ++ " " ++ argument) =
        reply fuel settings (":" ++ word ++ " " ++ argument)) ∧
    split (":" ++ word) = (word, "") ∧
    split (":" ++ blanks ++ word) = (blanks ++ word, "") ∧
    (blanks ≠ "" → reply fuel settings (":" ++ blanks ++ word) =
      ⟨.errLine ("Unknown command " ++ (blanks ++ word)) :: Answer.help, .answered⟩) ∧
    (Output.errText (reply fuel settings (":" ++ blanks ++ word)).outputs =
      Output.errText (reply fuel settings (":" ++ word)).outputs ↔ blanks = "") := by
  refine ⟨fun argument => ?_, iw.split_alone, iw.split_bare hb,
    fun ne => iw.reply_of_blanks hb ne fuel settings, ?_⟩
  · have e := iw.split_argument hb argument
    have e' : split (":" ++ word ++ " " ++ argument) = (word, argument) :=
      @IsWord.split_argument "" word iw rfl argument
    have nb : allBlank (":" ++ blanks ++ word ++ " " ++ argument).toList = false := by
      simpa [String.append_assoc] using allBlank_colon (blanks ++ word ++ " " ++ argument)
    have nb' : allBlank (":" ++ word ++ " " ++ argument).toList = false := by
      simpa [String.append_assoc] using allBlank_colon (word ++ " " ++ argument)
    exact ⟨e, e', by rw [reply_of_not_blank nb, reply_of_not_blank nb', e, e']⟩
  · constructor
    · intro ee
      by_contra ne
      rw [iw.reply_of_blanks hb ne, errText_unknown] at ee
      cases iw.errText_reply fuel settings with
      | inl e =>
        rw [e] at ee
        simp at ee
      | inr e =>
        rw [e, String.append_left_inj, String.append_right_inj] at ee
        have el := congrArg String.length ee
        rw [String.length_append] at el
        exact ne (String.length_eq_zero_iff.1 (by omega))
    · rintro rfl
      rw [String.append_empty]

/-- A line feed before the word for help changes nothing for one that has an argument, and all for
one that has none. -/
theorem reply_of_blanks_before_word_help :
    reply 0 .default ":\nhelp x" = reply 0 .default ":help x" ∧
      reply 0 .default ":\nhelp" =
        ⟨.errLine "Unknown command \nhelp" :: Answer.help, .answered⟩ := by
  obtain ⟨spaced, -, -, bare, -⟩ :=
    @reply_of_blanks_before_word "\n" "help" (by decide) (by decide) 0 .default
  exact ⟨(spaced "x").2.2, bare (by decide)⟩

/-- With a space before its name the command for help is not found, and that is complained about. -/
theorem help_after_space_unknown :
    split ": h" ≠ split ":h" ∧
      Output.errText (reply 0 .default ": h").outputs ≠
        Output.errText (reply 0 .default ":h").outputs := by
  decide +kernel

end Command

end WeakHead

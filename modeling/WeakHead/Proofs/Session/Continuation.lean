import WeakHead.Proofs.Session.CommandWord
import WeakHead.Proofs.Session.Entries
import WeakHead.Proofs.Session.Shown

/-!
# Lines that are broken

A line can be broken at any of its spaces: a backslash takes the place of the space, and the rest
stands on the next line. The input that is made of these lines has a line feed where the line had
the space. Among the blanks before the word of a command and in the text behind it that makes no
difference for what is shown. But only a space ends the word. So at that space a line must not be
broken: what was a command about a text becomes an unknown one. The entries of a session are all the
ways to break a line (`Entry.exists_of_breaksInto`).

Main statement: `shown_broken_iff`.
-/

namespace WeakHead

open Text (isBlank allBlank trimLeft SameButBlanks)

variable {cs ds : List Char}

/-! ### Line feeds for spaces -/

namespace Text

/-- The text is broken at some of its spaces: there are line feeds in their places. -/
def BreaksInto (cs ds : List Char) : Prop :=
  List.Forall₂ (fun c d => c = d ∨ c = ' ' ∧ d = '\n') cs ds

/-- The text is broken right behind `head`. -/
inductive BreaksBehind : List Char → List Char → List Char → Prop where
  | here {cs ds : List Char} : BreaksBehind [] (' ' :: cs) ('\n' :: ds)
  | there {head cs ds : List Char} {c d} :
    BreaksBehind head cs ds → BreaksBehind (c :: head) (c :: cs) (d :: ds)

namespace BreaksInto

lemma refl (cs : List Char) : BreaksInto cs cs :=
  List.forall₂_same.2 fun _ _ => .inl rfl

lemma append {cs' ds' : List Char} (br : BreaksInto cs ds) (br' : BreaksInto cs' ds') :
    BreaksInto (cs ++ cs') (ds ++ ds') :=
  List.rel_append br br'

lemma cons_inv {c} (br : BreaksInto (c :: cs) ds) :
    ∃ d ds', (c = d ∨ c = ' ' ∧ d = '\n') ∧ BreaksInto cs ds' ∧ ds = d :: ds' :=
  List.forall₂_cons_left_iff.1 br

/-- What is no space stays. -/
lemma cons_inv_of_ne {c} (br : BreaksInto (c :: cs) ds) (ne : c ≠ ' ') :
    ∃ ds', BreaksInto cs ds' ∧ ds = c :: ds' := by
  obtain ⟨d, ds', h, br', rfl⟩ := br.cons_inv
  obtain rfl | ⟨rfl, -⟩ := h
  · exact ⟨ds', br', rfl⟩
  · exact absurd rfl ne

/-- What is no line feed was there before. -/
lemma cons_inv_right_of_ne {d} (br : BreaksInto cs (d :: ds)) (ne : d ≠ '\n') :
    ∃ cs', cs = d :: cs' := by
  obtain ⟨c, cs', h, -, rfl⟩ := List.forall₂_cons_right_iff.1 br
  obtain rfl | ⟨-, rfl⟩ := h
  · exact ⟨cs', rfl⟩
  · exact absurd rfl ne

lemma append_inv {cs' : List Char} (br : BreaksInto (cs ++ cs') ds) :
    ∃ d d', BreaksInto cs d ∧ BreaksInto cs' d' ∧ ds = d ++ d' := by
  induction cs generalizing ds with
  | nil => exact ⟨[], ds, .nil, br, rfl⟩
  | cons c cs ih =>
    obtain ⟨x, ds', h, br', rfl⟩ := br.cons_inv
    obtain ⟨d, d', bd, bd', rfl⟩ := ih br'
    exact ⟨x :: d, d', .cons h bd, bd', rfl⟩

lemma eq_or_mem (br : BreaksInto cs ds) : ds = cs ∨ ' ' ∈ cs ∧ '\n' ∈ ds := by
  induction br with
  | nil => exact .inl rfl
  | cons h _ ih =>
    obtain rfl | ⟨rfl, rfl⟩ := h
    · obtain rfl | ⟨hm, hm'⟩ := ih
      · exact .inl rfl
      · exact .inr ⟨List.mem_cons_of_mem _ hm, List.mem_cons_of_mem _ hm'⟩
    · exact .inr ⟨List.mem_cons_self, List.mem_cons_self⟩

lemma eq_of_notMem (br : BreaksInto cs ds) (hn : ' ' ∉ cs) : ds = cs :=
  br.eq_or_mem.resolve_right fun h => hn h.1

/-- The first space is kept, or it is broken at. -/
lemma at_space {rest : List Char} (br : BreaksInto (cs ++ ' ' :: rest) ds) (hn : ' ' ∉ cs) :
    ∃ rest', BreaksInto rest rest' ∧ (ds = cs ++ ' ' :: rest' ∨ ds = cs ++ '\n' :: rest') := by
  obtain ⟨d, d', bd, bd', rfl⟩ := br.append_inv
  obtain ⟨c, rest', h, br', rfl⟩ := bd'.cons_inv
  cases bd.eq_of_notMem hn
  obtain rfl | ⟨-, rfl⟩ := h
  · exact ⟨rest', br', .inl rfl⟩
  · exact ⟨rest', br', .inr rfl⟩

lemma sameButBlanks (br : BreaksInto cs ds) : SameButBlanks cs ds := by
  refine List.Forall₂.imp (fun c d h => ?_) br
  obtain rfl | ⟨rfl, rfl⟩ := h
  · exact .inl rfl
  · exact .inr ⟨by decide, by decide⟩

lemma trimLeft (br : BreaksInto cs ds) : BreaksInto (trimLeft cs) (trimLeft ds) := by
  refine forall₂_dropWhile (fun c d h => ?_) br
  obtain rfl | ⟨rfl, rfl⟩ := h
  · rfl
  · decide

end BreaksInto

namespace BreaksBehind

variable {head : List Char}

lemma append {cs' ds' : List Char} (el : ds.length = cs.length) (bb : BreaksBehind head cs' ds') :
    BreaksBehind (cs ++ head) (cs ++ cs') (ds ++ ds') := by
  induction cs generalizing ds with
  | nil =>
    cases List.length_eq_zero_iff.1 el
    exact bb
  | cons c cs ih =>
    obtain ⟨d, ds, rfl⟩ := List.exists_cons_of_length_eq_add_one el
    exact .there (ih (Nat.succ.inj el))

lemma ne (bb : BreaksBehind head cs ds) : cs ≠ ds := by
  induction bb with
  | here =>
    intro e
    exact absurd (List.cons.inj e).1 (by decide)
  | there _ ih =>
    intro e
    exact ih (List.cons.inj e).2

/-- Behind the blanks at the beginning it is broken where it is without them. -/
lemma of_trimLeft {rest rest' tail tail' : List Char} (br : BreaksInto rest rest')
    (et : Text.trimLeft rest = cs ++ ' ' :: tail)
    (et' : Text.trimLeft rest' = cs ++ '\n' :: tail') :
    BreaksBehind (rest.takeWhile isBlank ++ cs) rest rest' := by
  have er : rest.takeWhile isBlank ++ Text.trimLeft rest = rest := List.takeWhile_append_dropWhile
  have er' : rest'.takeWhile isBlank ++ Text.trimLeft rest' = rest' :=
    List.takeWhile_append_dropWhile
  have length : (rest'.takeWhile isBlank ++ cs).length = (rest.takeWhile isBlank ++ cs).length := by
    have e := br.length_eq
    have e' := br.trimLeft.length_eq
    rw [← er, ← er', List.length_append, List.length_append] at e
    rw [List.length_append, List.length_append]
    omega
  have bb := append length (@here tail tail')
  rw [List.append_nil, List.append_assoc, List.append_assoc, ← et, ← et', er, er'] at bb
  exact bb

/-- Behind a text that is not broken it is broken at once or later. -/
lemma append_cons_iff {cs' ds' : List Char} :
    BreaksBehind head (cs ++ ' ' :: cs') (cs ++ '\n' :: ds') ↔
      head = cs ∨ ∃ more, head = cs ++ ' ' :: more ∧ BreaksBehind more cs' ds' := by
  constructor
  · intro bb
    induction cs generalizing head with
    | nil =>
      cases bb with
      | here => exact .inl rfl
      | there bb => exact .inr ⟨_, rfl, bb⟩
    | cons c cs ih =>
      cases bb with
      | there bb =>
        obtain rfl | ⟨more, rfl, bb'⟩ := ih bb
        · exact .inl rfl
        · exact .inr ⟨more, rfl, bb'⟩
  · rintro (rfl | ⟨more, rfl, bb⟩)
    · have bb := append (rfl : head.length = head.length) (@here cs' ds')
      rwa [List.append_nil] at bb
    · exact bb.there.append rfl

/-- What stands before the place may be broken as well. -/
lemma exists_append (bb : BreaksBehind head cs ds) (br : BreaksInto cs ds) :
    ∃ head' tail tail', BreaksInto head head' ∧ cs = head ++ ' ' :: tail ∧
      ds = head' ++ '\n' :: tail' := by
  induction bb with
  | here => exact ⟨[], _, _, .refl [], rfl, rfl⟩
  | @there head cs ds c d bb ih =>
    obtain ⟨h, br⟩ := List.forall₂_cons.1 br
    obtain ⟨head', tail, tail', bh, rfl, rfl⟩ := ih br
    exact ⟨d :: head', tail, tail', .cons h bh, rfl, rfl⟩

end BreaksBehind

end Text

open Text (BreaksInto BreaksBehind)

/-! ### The word of a command in a broken line -/

namespace Command

variable {line input : String} {rest word argument : List Char}

/-- A line feed before the first space is in the word. -/
lemma lineFeed_mem_split (e : input.toList = ':' :: rest)
    (et : trimLeft rest = word ++ '\n' :: argument) (hn : ' ' ∉ word) :
    '\n' ∈ (split input).1.toList := by
  by_cases hs : ' ' ∈ argument
  · obtain ⟨more, others, rfl, hm⟩ := List.eq_append_cons_of_mem hs
    have et' : trimLeft rest = (word ++ '\n' :: more) ++ ' ' :: others := by
      rw [et, List.append_assoc, List.cons_append]
    have hn' : ' ' ∉ word ++ '\n' :: more := by simp [hn, hm]
    rw [split_of_trimLeft_eq e et' hn', String.toList_ofList]
    simp
  · have hn' : ' ' ∉ trimLeft rest := by simp [et, hn, hs]
    have hm : '\n' ∈ trimLeft rest := by simp [et]
    rw [split_of_notMem e hn', String.toList_ofList]
    exact (List.dropWhile_suffix _).subset hm

/-- A colon and the word of a command that takes a text, and nothing else but blanks between
them. -/
def IsCall (text : String) : Prop :=
  ∃ blanks word, text = ":" ++ blanks ++ word ∧ allBlank blanks.toList = true ∧ IsWord word ∧
    (ofWord word).TakesText

lemma not_takesText_of_blank {word : String} {c} (hm : c ∈ word.toList) (hc : isBlank c = true) :
    ¬ (ofWord word).TakesText := by
  rw [ofWord_of_blank hm hc]
  exact not_takesText_unknown _

/-- What stands before the first space behind the blanks is a call if the command takes a text. -/
lemma isCall_of_trimLeft_eq (et : trimLeft rest = word ++ ' ' :: argument)
    (tt : (ofWord (String.ofList word)).TakesText) :
    IsCall (String.ofList (':' :: (rest.takeWhile isBlank ++ word))) := by
  refine ⟨String.ofList (rest.takeWhile isBlank), String.ofList word, ?_, ?_,
    ⟨fun e => ?_, fun c hm => ?_⟩, tt⟩
  · simp [← String.toList_inj]
  · rw [String.toList_ofList]
    exact List.all_takeWhile
  · have ew : word = [] := by simpa [← String.toList_inj] using e
    have hn := List.head?_dropWhile_not isBlank rest
    have ed : rest.dropWhile isBlank = ' ' :: argument := by
      rw [← trimLeft, et, ew, List.nil_append]
    have hb : isBlank ' ' = true := by decide
    simp [ed, hb] at hn
  · by_contra hb
    exact not_takesText_of_blank hm ((Bool.not_eq_false _).mp hb) tt

/-- A broken line has the word of its command as before, and the text behind it is the same but for
its blanks. Otherwise there is a line feed in the word, and if the command takes a text without it,
that line feed is broken behind its word. -/
lemma split_of_breaksInto (br : BreaksInto line.toList input.toList) :
    (split input).1 = (split line).1 ∧
        SameButBlanks (split line).2.toList (split input).2.toList ∨
      '\n' ∈ (split input).1.toList ∧ ((ofWord (split line).1).TakesText →
        ∃ head, BreaksBehind head.toList line.toList input.toList ∧ IsCall head) := by
  by_cases hc : ∃ rest, line.toList = ':' :: rest
  · obtain ⟨rest, el⟩ := hc
    rw [el] at br
    obtain ⟨rest', br', ei⟩ := br.cons_inv_of_ne (by decide)
    by_cases hs : ' ' ∈ trimLeft rest
    · obtain ⟨word, argument, et, hn⟩ := List.eq_append_cons_of_mem hs
      have bt := br'.trimLeft
      rw [et] at bt
      obtain ⟨argument', ba, et' | et'⟩ := bt.at_space hn
      · rw [split_of_trimLeft_eq el et hn, split_of_trimLeft_eq ei et' hn]
        exact .inl ⟨rfl, by simpa using ba.sameButBlanks⟩
      · refine .inr ⟨lineFeed_mem_split ei et' hn, fun tt => ?_⟩
        rw [split_of_trimLeft_eq el et hn] at tt
        refine ⟨_, ?_, isCall_of_trimLeft_eq et tt⟩
        rw [String.toList_ofList, el, ei]
        exact .there (.of_trimLeft br' et et')
    -- Without a space behind it the word is all of the line, with the blanks before it.
    · have hn : ' ' ∉ trimLeft rest' := by rwa [br'.trimLeft.eq_of_notMem hs]
      rw [split_of_notMem el hs, split_of_notMem ei hn]
      obtain rfl | ⟨hm, hm'⟩ := br'.eq_or_mem
      · exact .inl ⟨rfl, .refl _⟩
      · refine .inr ⟨by rwa [String.toList_ofList], fun tt => ?_⟩
        exact absurd tt (not_takesText_of_blank (by rwa [String.toList_ofList]) (by decide))
  · have hc' : ∀ rest, input.toList ≠ ':' :: rest := by
      intro rest ei
      rw [ei] at br
      exact hc (br.cons_inv_right_of_ne (by decide))
    rw [split_of_ne_colon fun rest el => hc ⟨rest, el⟩, split_of_ne_colon hc']
    exact .inl ⟨rfl, br.sameButBlanks⟩

/-- A command that takes a text is not found any more if the line is broken behind its word. -/
lemma IsCall.split_breaks {head : String} (ic : IsCall head)
    (bb : BreaksBehind head.toList line.toList input.toList)
    (br : BreaksInto line.toList input.toList) :
    allBlank line.toList = false ∧ (ofWord (split line).1).TakesText ∧
      '\n' ∈ (split input).1.toList := by
  obtain ⟨blanks, word, rfl, hb, iw, tt⟩ := ic
  obtain ⟨head', tail, tail', bh, el, ei⟩ := bb.exists_append br
  have eh : (":" ++ blanks ++ word).toList = ':' :: (blanks.toList ++ word.toList) := by simp
  rw [eh] at el bh
  obtain ⟨more', bm, rfl⟩ := bh.cons_inv_of_ne (by decide)
  obtain ⟨blanks', word', bb', bw, rfl⟩ := bm.append_inv
  cases bw.eq_of_notMem iw.space_notMem
  refine ⟨?_, ?_, ?_⟩
  · have hc : isBlank ':' = false := by decide
    simp [el, allBlank, hc]
  · have e : line = ":" ++ blanks ++ word ++ " " ++ String.ofList tail := by
      rw [← String.toList_inj, el]
      simp
    rw [e, iw.split_argument hb]
    exact tt
  · have hb' : allBlank (String.ofList blanks').toList = true := by
      rw [String.toList_ofList, ← bb'.sameButBlanks.allBlank_eq, hb]
    have et := iw.trimLeft_eq hb' ('\n' :: tail')
    rw [String.toList_ofList] at et
    refine lineFeed_mem_split ?_ et iw.space_notMem
    rw [ei]
    simp

variable {fuel : Nat} {settings : Settings}

/-- A line and what it is broken into are replied to alike if it is not broken behind a call. -/
lemma showsSame_of_breaksInto (br : BreaksInto line.toList input.toList)
    (hn : ¬ ∃ head, BreaksBehind head.toList line.toList input.toList ∧ IsCall head) :
    (reply fuel settings line).ShowsSame (reply fuel settings input) := by
  have ea := br.sameButBlanks.allBlank_eq
  cases hb : allBlank line.toList with
  | true =>
    rw [reply, if_pos hb, reply, if_pos (ea ▸ hb)]
    exact .refl _
  | false =>
    have hb' : allBlank input.toList = false := ea ▸ hb
    obtain ⟨ew, sb⟩ | ⟨hm, h⟩ := split_of_breaksInto br
    · rw [reply_of_not_blank hb, reply_of_not_blank hb', ew, answer_eq sb]
      exact Reply.showsSame_of sb _
    -- Both words stand for no command about a text, so the explanation is shown for both.
    · have nt : ¬ (ofWord (split line).1).TakesText := fun tt => hn (h tt)
      have nt' : ¬ (ofWord (split input).1).TakesText := not_takesText_of_blank hm (by decide)
      obtain ⟨es, ee⟩ := @reply_of_not_takesText fuel settings _ hb nt
      obtain ⟨es', ee'⟩ := @reply_of_not_takesText fuel settings _ hb' nt'
      exact ⟨es.trans es'.symm, ee.trans ee'.symm⟩

end Command

/-! ### Entries that are broken -/

namespace Session

open Command (IsCall)

/-- The entry on one line, with a space for each backslash that continues a line. -/
def Entry.unbroken (e : Entry) : String :=
  String.join (e.parts.map (· ++ " ")) ++ e.last

/-- The entry is broken right behind the word of a command that takes a text: its first lines are
that word, with the colon and the blanks before it. -/
def Entry.BreaksCommand (e : Entry) : Prop :=
  ∃ first rest, e.parts = first ++ rest ∧ IsCall (" ".intercalate first)

namespace Entry

variable {e : Entry}

lemma breaksInto (e : Entry) : BreaksInto e.unbroken.toList e.input.toList := by
  obtain ⟨parts, last, hn⟩ := e
  induction parts with
  | nil => exact .refl _
  | cons part parts ih =>
    have step := BreaksInto.append (.refl part.toList) (.cons (.inr ⟨rfl, rfl⟩) ih)
    simpa [unbroken, input] using step

/-- An entry is broken behind each of its lines but the last one. -/
lemma breaksBehind_iff {e : Entry} {head : List Char} :
    BreaksBehind head e.unbroken.toList e.input.toList ↔
      ∃ first rest, first ≠ [] ∧ e.parts = first ++ rest ∧
        (" ".intercalate first).toList = head := by
  obtain ⟨parts, last, hn⟩ := e
  induction parts generalizing head with
  | nil =>
    refine ⟨fun bb => absurd rfl bb.ne, ?_⟩
    rintro ⟨first, rest, ne, e, -⟩
    exact absurd (List.append_eq_nil_iff.1 e.symm).1 ne
  | cons part parts ih =>
    have eu : (unbroken ⟨part :: parts, last, hn⟩).toList =
        part.toList ++ ' ' :: (unbroken ⟨parts, last, hn⟩).toList := by simp [unbroken]
    have ei : (input ⟨part :: parts, last, hn⟩).toList =
        part.toList ++ '\n' :: (input ⟨parts, last, hn⟩).toList := by simp [input]
    rw [eu, ei, BreaksBehind.append_cons_iff]
    constructor
    · rintro (rfl | ⟨more, rfl, bb⟩)
      · exact ⟨[part], parts, List.cons_ne_nil _ _, rfl, by rw [String.intercalate_singleton]⟩
      · obtain ⟨first, rest, ne, e, rfl⟩ := ih.1 bb
        obtain ⟨next, others, rfl⟩ := List.exists_cons_of_ne_nil ne
        refine ⟨part :: next :: others, rest, List.cons_ne_nil _ _, congrArg (part :: ·) e, ?_⟩
        rw [String.intercalate_cons_cons]
        simp
    · rintro ⟨first, rest, ne, e, rfl⟩
      cases first with
      | nil => exact absurd rfl ne
      | cons part' first =>
        obtain ⟨rfl, et⟩ := List.cons.inj e
        cases first with
        | nil => exact .inl (by rw [String.intercalate_singleton])
        | cons next others =>
          refine .inr ⟨_, ?_, ih.2 ⟨next :: others, rest, List.cons_ne_nil _ _, et, rfl⟩⟩
          rw [String.intercalate_cons_cons]
          simp

lemma breaksCommand_iff :
    (∃ head, BreaksBehind head.toList e.unbroken.toList e.input.toList ∧ IsCall head) ↔
      e.BreaksCommand := by
  constructor
  · rintro ⟨head, bb, ic⟩
    obtain ⟨first, rest, -, ep, eh⟩ := breaksBehind_iff.1 bb
    cases String.toList_inj.1 eh
    exact ⟨first, rest, ep, ic⟩
  · rintro ⟨first, rest, ep, ic⟩
    refine ⟨_, breaksBehind_iff.2 ⟨first, rest, ?_, ep, rfl⟩, ic⟩
    rintro rfl
    obtain ⟨blanks, word, e, -⟩ := ic
    have el := congrArg String.toList e
    simp at el

/-- A space is no backslash, so a backslash at the end would be that of the last line. -/
lemma unbroken_complete (e : Entry) : ∀ part, e.unbroken ≠ part ++ "\\" := by
  obtain ⟨parts, last, hn⟩ := e
  induction parts with
  | nil => simpa [unbroken] using hn
  | cons first parts ih =>
    intro part e
    have el : first.toList ++ ' ' :: (unbroken ⟨parts, last, hn⟩).toList =
        part.toList ++ ['\\'] := by
      simpa [unbroken] using congrArg String.toList e
    cases List.eq_nil_or_concat' (unbroken ⟨parts, last, hn⟩).toList with
    | inl en =>
      rw [en] at el
      exact absurd (List.append_inj' el rfl).2 (by decide)
    | inr ec =>
      obtain ⟨cs, c, ec⟩ := ec
      rw [ec, ← List.cons_append, ← List.append_assoc] at el
      cases (List.append_inj' el rfl).2
      exact ih (String.ofList cs) (by simp [← String.toList_inj, ec])

/-- A text that is broken at some spaces falls into parts there. -/
lemma exists_parts_of_breaksInto (br : BreaksInto cs ds) :
    ∃ (parts : List String) (last : String),
      (String.join (parts.map (· ++ " ")) ++ last).toList = cs ∧
        (String.join (parts.map (· ++ "\n")) ++ last).toList = ds := by
  induction br with
  | nil => exact ⟨[], "", rfl, rfl⟩
  | @cons c d _ _ h _ ih =>
    obtain ⟨parts, last, ec, ed⟩ := ih
    subst ec ed
    obtain rfl | ⟨rfl, rfl⟩ := h
    · cases parts with
      | nil => exact ⟨[], String.ofList (c :: last.toList), by simp, by simp⟩
      | cons part parts =>
        exact ⟨String.ofList (c :: part.toList) :: parts, last, by simp, by simp⟩
    · exact ⟨"" :: parts, last, by simp, by simp⟩

/-- Each choice among the spaces of a line that completes its input makes an entry. -/
theorem exists_of_breaksInto {line : String} (hn : ∀ part, line ≠ part ++ "\\")
    (br : BreaksInto line.toList ds) : ∃ e : Entry, e.unbroken = line ∧ e.input.toList = ds := by
  obtain ⟨parts, last, el, ei⟩ := exists_parts_of_breaksInto br
  have eu : String.join (parts.map (· ++ " ")) ++ last = line := String.toList_inj.1 el
  refine ⟨⟨parts, last, fun part e => ?_⟩, eu, ei⟩
  rw [e, ← String.append_assoc] at eu
  exact hn _ eu.symm

end Entry

variable {fuel : Nat} {settings : Settings} {e : Entry}

/-- The line that the entry is without its breaks, as an entry. -/
def Entry.rejoined (e : Entry) : Entry :=
  ⟨[], e.unbroken, e.unbroken_complete⟩

@[simp] lemma Entry.lines_rejoined (e : Entry) : e.rejoined.lines = [e.unbroken] :=
  rfl

@[simp] lemma Entry.input_rejoined (e : Entry) : e.rejoined.input = e.unbroken :=
  String.empty_append

lemma inputs_unbroken (e : Entry) (after : List String) :
    inputs (e.unbroken :: after) = e.unbroken :: inputs after := by
  have eq := inputs_entry e.rejoined after
  rwa [Entry.lines_rejoined, Entry.input_rejoined] at eq

/-! ### Sessions with broken lines -/

lemma Entry.showsSame (hn : ¬ e.BreaksCommand) :
    (Command.reply fuel settings e.input).ShowsSame (Command.reply fuel settings e.unbroken) := by
  obtain ⟨es, ee⟩ := Command.showsSame_of_breaksInto e.breaksInto (mt breaksCommand_iff.1 hn)
  exact ⟨es.symm, ee.symm⟩

/-- Behind the word of a command that takes a text, a break makes the word unknown. -/
lemma Entry.BreaksCommand.reply_eq (bc : e.BreaksCommand) : ∃ word, '\n' ∈ word.toList ∧
    Command.reply fuel settings e.input =
      ⟨.errLine ("Unknown command " ++ word) :: Answer.help, .answered⟩ := by
  obtain ⟨head, bb, ic⟩ := breaksCommand_iff.2 bc
  obtain ⟨hb, -, hm⟩ := ic.split_breaks bb e.breaksInto
  refine ⟨_, hm, ?_⟩
  rw [Command.reply_of_not_blank (e.breaksInto.sameButBlanks.allBlank_eq ▸ hb),
    Command.ofWord_of_blank hm (by decide)]
  rfl

/-- A break behind the word of a command that takes a text is seen in what is shown, whatever else
the session is about. -/
lemma Entry.BreaksCommand.outText_ne (bc : e.BreaksCommand) (after) :
    Output.outText (run fuel settings (e.lines ++ after)).outputs ≠
      Output.outText (run fuel settings (e.unbroken :: after)).outputs := by
  obtain ⟨head, bb, ic⟩ := breaksCommand_iff.2 bc
  obtain ⟨hb, tt, hm⟩ := ic.split_breaks bb e.breaksInto
  have hb' : allBlank e.input.toList = false := e.breaksInto.sameButBlanks.allBlank_eq ▸ hb
  have nt := Command.not_takesText_of_blank hm (by decide)
  rw [outText_run, outText_run, inputs_entry, inputs_unbroken]
  intro h
  exact outText_replyAll_ne hb hb' tt nt _ _ ((String.append_right_inj _).1 h).symm

/-- A session shows the same whether the lines of its inputs are broken or not, if none of them is
broken right behind the word of a command that takes a text. -/
theorem shown_of_not_breaksCommand {entries : List Entry} {waiting : List String}
    (hn : ∀ e ∈ entries, ¬ e.BreaksCommand) :
    let waits := waiting.map (· ++ "\\")
    let broken := run fuel settings (entries.flatMap Entry.lines ++ waits)
    let unbroken := run fuel settings (entries.map Entry.unbroken ++ waits)
    Output.outText broken.outputs = Output.outText unbroken.outputs ∧
      broken.exit = unbroken.exit := by
  intro waits broken unbroken
  have dv : Divides entries waiting (entries.flatMap Entry.lines ++ waits) := rfl
  have dv' : Divides (entries.map Entry.rejoined) waiting
      (entries.map Entry.unbroken ++ waits) := by
    rw [Divides, List.flatMap_map, List.map_eq_flatMap]
    rfl
  refine run_of_showsSame ?_
  rw [dv.inputs_eq, dv'.inputs_eq, List.map_map, List.forall₂_map_left_iff,
    List.forall₂_map_right_iff, List.forall₂_same]
  intro e hm
  have ss := @Entry.showsSame fuel settings e (hn e hm)
  rwa [← Entry.input_rejoined] at ss

/-- An entry shows the same as the line that it is without its breaks exactly if it is not broken
right behind the word of a command that takes a text. The session ends in the same way then. If it
is broken there, it is answered as a command that does not exist. -/
theorem shown_broken_iff (e : Entry) (after : List String) (fuel settings) :
    (Output.outText (run fuel settings (e.lines ++ after)).outputs =
      Output.outText (run fuel settings (e.unbroken :: after)).outputs ↔ ¬ e.BreaksCommand) ∧
    (¬ e.BreaksCommand → (run fuel settings (e.lines ++ after)).exit =
      (run fuel settings (e.unbroken :: after)).exit) ∧
    (e.BreaksCommand → ∃ word, '\n' ∈ word.toList ∧ Command.reply fuel settings e.input =
      ⟨.errLine ("Unknown command " ++ word) :: Answer.help, .answered⟩) := by
  have same (hn : ¬ e.BreaksCommand) := @run_of_showsSame fuel settings (e.lines ++ after)
    (e.unbroken :: after) (by
      rw [inputs_entry, inputs_unbroken]
      exact .cons (Entry.showsSame hn) (List.forall₂_same.2 fun _ _ => .refl _))
  exact ⟨⟨fun es bc => bc.outText_ne after es, fun hn => (same hn).1⟩, fun hn => (same hn).2,
    fun bc => bc.reply_eq⟩

/-- The call to parse a term, broken behind its word, does not show the term. -/
theorem shown_parse_broken :
    (Command.reply 0 .default ":parse x").ending = .answered ∧
      Output.outText (run 0 .default [":parse\\", "x"]).outputs ≠
        Output.outText (run 0 .default [":parse x"]).outputs := by
  have complete : ∀ part, "x" ≠ part ++ "\\" := by
    intro part e
    have el := congrArg (fun s => s.toList.getLast?) e
    simp at el
  have bc : Entry.BreaksCommand ⟨[":parse"], "x", complete⟩ :=
    ⟨[":parse"], [], rfl, "", "parse", by decide +kernel, rfl, by decide, by decide⟩
  exact ⟨by decide +kernel, bc.outText_ne []⟩

end Session

end WeakHead

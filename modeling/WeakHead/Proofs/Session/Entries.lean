import WeakHead.Proofs.Session

/-!
# Sessions entry by entry

The lines of a session divide, in one way only, into entries and lines that wait for their
continuation at the end. An entry is some lines that are continued and one that is not, and it makes
one input. What is held between the lines of an entry is put down with its last line, so an entry is
answered as it would be in a session of its own.

Main statement: `run_entry_by_entry`.
-/

namespace WeakHead.Session

/-- Lines that make one input: some that are continued, and one that is not. -/
structure Entry where
  /-- The lines that are continued, without the backslash at the end of each. -/
  parts : List String
  /-- The line that completes the input. -/
  last : String
  complete : ∀ part, last ≠ part ++ "\\"

/-- The lines of an entry as they are typed. -/
def Entry.lines (e : Entry) : List String :=
  e.parts.map (· ++ "\\") ++ [e.last]

/-- The lines of an entry as one text, with a line feed for each backslash that continues a line. -/
def Entry.input (e : Entry) : String :=
  String.join (e.parts.map (· ++ "\n")) ++ e.last

/-- The lines are those of the entries, one after the other, and behind them some that wait for
their continuation. -/
def Divides (entries : List Entry) (waiting : List String) (lines : List String) : Prop :=
  lines = entries.flatMap Entry.lines ++ waiting.map (· ++ "\\")

/-- Takes some lines. The inputs that they complete are given, in order. -/
def acceptAll (s : Session) : List String → Session × List String
  | [] => (s, [])
  | line :: rest =>
    let (s, input?) := s.accept line
    let (s, inputs) := s.acceptAll rest
    (s, input?.toList ++ inputs)

variable {fuel : Nat} {settings : Settings} {lines : List String}

/-! ### Division into entries -/

lemma continued?_eq_some (part : String) : continued? (part ++ "\\") = some part := by
  have er : (part ++ "\\").toList.reverse = '\\' :: part.toList.reverse := by
    rw [String.toList_append, List.reverse_append]
    rfl
  rw [continued?, er]
  simp

lemma continued?_eq_none {line : String} (hn : ∀ part, line ≠ part ++ "\\") :
    continued? line = none := by
  cases e : continued? line with
  | none => rfl
  | some part =>
    rw [continued?] at e
    split at e
    · next rest er =>
      refine absurd ?_ (hn (String.ofList rest.reverse))
      rw [← String.toList_inj, String.toList_append, String.toList_ofList]
      have el := congrArg List.reverse er
      rw [List.reverse_reverse, List.reverse_cons] at el
      exact el
    · cases e

/-- The lines tell where the first entry ends, and so what it is. -/
lemma Entry.lines_append_inj {e e' : Entry} {rest rest' : List String}
    (eq : e.lines ++ rest = e'.lines ++ rest') : e = e' ∧ rest = rest' := by
  obtain ⟨parts, last, hn⟩ := e
  obtain ⟨parts', last', hn'⟩ := e'
  simp only [lines, List.append_assoc, List.singleton_append] at eq
  induction parts generalizing parts' with
  | nil =>
    cases parts' with
    | nil =>
      obtain ⟨rfl, rfl⟩ := List.cons.inj eq
      exact ⟨rfl, rfl⟩
    | cons part' _ => exact absurd (List.cons.inj eq).1 (hn part')
  | cons part parts ih =>
    cases parts' with
    | nil => exact absurd (List.cons.inj eq).1.symm (hn' part)
    | cons part' parts' =>
      obtain ⟨ep, eq⟩ := List.cons.inj eq
      obtain ⟨ee, er⟩ := ih parts' eq
      cases ee
      cases (String.append_left_inj _).1 ep
      exact ⟨rfl, er⟩

/-- The last line of an entry is none that waits for its continuation. -/
lemma Entry.lines_append_ne {e : Entry} {rest waiting : List String} :
    e.lines ++ rest ≠ waiting.map (· ++ "\\") := by
  intro eq
  have hm : e.last ∈ e.lines ++ rest := by simp [lines]
  rw [eq] at hm
  obtain ⟨part, -, el⟩ := List.mem_map.1 hm
  exact e.complete part el.symm

/-- There is one way to divide lines into entries. -/
lemma Divides.unique {entries entries' waiting waiting'} (dv : Divides entries waiting lines)
    (dv' : Divides entries' waiting' lines) : entries' = entries ∧ waiting' = waiting := by
  have eq := dv.symm.trans dv'
  clear dv dv'
  induction entries generalizing entries' with
  | nil =>
    cases entries' with
    | nil =>
      have inj : Function.Injective fun part => part ++ "\\" := by
        intro part part' e
        exact (String.append_left_inj _).1 e
      exact ⟨rfl, (List.map_injective_iff.2 inj eq).symm⟩
    | cons e' entries' =>
      rw [List.flatMap_cons, List.append_assoc] at eq
      exact absurd eq.symm Entry.lines_append_ne
  | cons e entries ih =>
    rw [List.flatMap_cons, List.append_assoc] at eq
    cases entries' with
    | nil => exact absurd eq Entry.lines_append_ne
    | cons e' entries' =>
      rw [List.flatMap_cons, List.append_assoc] at eq
      obtain ⟨ee, er⟩ := Entry.lines_append_inj eq
      obtain ⟨es, ew⟩ := ih er
      exact ⟨by rw [ee, es], ew⟩

/-- Lines can always be divided into entries. -/
lemma exists_divides (lines : List String) : ∃ entries waiting, Divides entries waiting lines := by
  induction lines with
  | nil => exact ⟨[], [], rfl⟩
  | cons line lines ih =>
    obtain ⟨entries, waiting, rfl⟩ := ih
    by_cases hc : ∃ part, line = part ++ "\\"
    · obtain ⟨part, rfl⟩ := hc
      -- A continued line goes to the entry behind it, or waits if there is none.
      cases entries with
      | nil => exact ⟨[], part :: waiting, rfl⟩
      | cons e entries => exact ⟨{ e with parts := part :: e.parts } :: entries, waiting, rfl⟩
    · exact ⟨⟨[], line, fun part e => hc ⟨part, e⟩⟩ :: entries, waiting, rfl⟩

/-! ### Entries and inputs -/

lemma acceptAll_cons (s : Session) (line rest) :
    s.acceptAll (line :: rest) =
      (((s.accept line).1.acceptAll rest).1,
        (s.accept line).2.toList ++ ((s.accept line).1.acceptAll rest).2) := by
  rfl

/-- A line that is continued is held, with a line feed for its backslash. -/
lemma accept_continued (s : Session) (part) :
    s.accept (part ++ "\\") = (⟨s.settings, s.held ++ part ++ "\n"⟩, none) := by
  rw [accept, continued?_eq_some]

lemma accept_last (s : Session) (e : Entry) :
    s.accept e.last = (⟨s.settings, ""⟩, some (s.held ++ e.last)) := by
  rw [accept, continued?_eq_none e.complete]

/-- An entry makes one input, with what was held before it, and nothing is held behind it. -/
lemma acceptAll_entry (s : Session) (e : Entry) (rest) :
    s.acceptAll (e.lines ++ rest) =
      (((start s.settings).acceptAll rest).1,
        (s.held ++ e.input) :: ((start s.settings).acceptAll rest).2) := by
  obtain ⟨parts, last, hn⟩ := e
  induction parts generalizing s with
  | nil =>
    show s.acceptAll (last :: rest) = _
    rw [acceptAll_cons, accept_last s ⟨[], last, hn⟩]
    simp [Entry.input, start]
  | cons part parts ih =>
    show s.acceptAll ((part ++ "\\") :: (Entry.lines ⟨parts, last, hn⟩ ++ rest)) = _
    rw [acceptAll_cons, accept_continued, ih]
    simp [Entry.input, String.append_assoc]

/-- Lines that wait for their continuation are held. -/
lemma acceptAll_waiting (s : Session) (waiting : List String) :
    s.acceptAll (waiting.map (· ++ "\\")) =
      (⟨s.settings, s.held ++ String.join (waiting.map (· ++ "\n"))⟩, []) := by
  induction waiting generalizing s with
  | nil => simp [acceptAll]
  | cons part waiting ih =>
    rw [List.map_cons, acceptAll_cons, accept_continued, ih]
    simp [String.append_assoc]

/-- The inputs are those of the entries, and what waits at the end is not among them. -/
lemma Divides.acceptAll_start {entries waiting} (dv : Divides entries waiting lines) :
    (start settings).acceptAll lines =
      (⟨settings, String.join (waiting.map (· ++ "\n"))⟩, entries.map Entry.input) := by
  subst dv
  induction entries with
  | nil =>
    show (start settings).acceptAll (waiting.map (· ++ "\\")) = _
    rw [acceptAll_waiting]
    simp [start]
  | cons e entries ih =>
    rw [List.flatMap_cons, List.append_assoc, acceptAll_entry]
    show (((start settings).acceptAll _).1, _ :: ((start settings).acceptAll _).2) = _
    rw [ih]
    simp [start]

lemma acceptAll_snd (s : Session) (lines) : (s.acceptAll lines).2 = inputsFrom s.held lines := by
  induction lines generalizing s with
  | nil => rfl
  | cons line rest ih =>
    rw [acceptAll_cons, ih, inputsFrom, accept]
    cases continued? line <;> rfl

lemma Divides.inputs_eq {entries waiting} (dv : Divides entries waiting lines) :
    inputs lines = entries.map Entry.input := by
  have e := acceptAll_snd (start .default) lines
  rw [dv.acceptAll_start] at e
  exact e.symm

lemma inputs_entry (e : Entry) (after : List String) :
    inputs (e.lines ++ after) = e.input :: inputs after := by
  have eq := acceptAll_snd (start .default) (e.lines ++ after)
  rw [acceptAll_entry, acceptAll_snd] at eq
  exact eq.symm.trans (congrArg (· :: inputs after) String.empty_append)

/-! ### Sessions -/

/-- A session that goes on after each of its inputs answers them one after the other. -/
lemma Divides.run_eq {entries waiting} (dv : Divides entries waiting lines)
    (go : ∀ e ∈ entries, (Command.reply fuel settings e.input).GoesOn) :
    run fuel settings lines =
      ⟨greeting ++ entries.flatMap (fun e => (Command.reply fuel settings e.input).outputs) ++
        farewell, .success⟩ := by
  have go' : ∀ input ∈ entries.map Entry.input, (Command.reply fuel settings input).GoesOn := by
    simpa using go
  have er := replyAll_append_of_goesOn ⟨farewell, .success⟩ [] go'
  rw [List.append_nil] at er
  rw [Session.run_eq, dv.inputs_eq, er, replies, List.flatMap_map, List.append_assoc]
  rfl

/-- A session without a breakdown treats each entry as a session of its own would. Its lines divide
in one way into entries and lines whose continuation never comes. It takes the inputs of the
entries, in order, and still holds what waits at the end. What it writes is the greeting, what each
entry alone brings about between a greeting and a farewell, and the farewell. -/
theorem run_entry_by_entry
    (unbroken : ∀ input ∈ ((start settings).acceptAll lines).2,
      (Command.reply fuel settings input).ending ≠ .crashed)
    (settled : ∀ input ∈ ((start settings).acceptAll lines).2,
      (Command.reply fuel settings input).ending ≠ .unsettled) :
    ∃ entries waiting,
      (∀ entries' waiting',
        Divides entries' waiting' lines ↔ entries' = entries ∧ waiting' = waiting) ∧
      (start settings).acceptAll lines =
        (⟨settings, String.join (waiting.map (· ++ "\n"))⟩, entries.map Entry.input) ∧
      (∀ e ∈ entries, run fuel settings e.lines =
        ⟨greeting ++ (Command.reply fuel settings e.input).outputs ++ farewell, .success⟩) ∧
      run fuel settings lines =
        ⟨greeting ++ entries.flatMap (fun e => (Command.reply fuel settings e.input).outputs) ++
          farewell, .success⟩ := by
  obtain ⟨entries, waiting, dv⟩ := exists_divides lines
  have ea : (start settings).acceptAll lines = _ := dv.acceptAll_start
  have go : ∀ e ∈ entries, (Command.reply fuel settings e.input).GoesOn := by
    intro e hm
    have hi : e.input ∈ ((start settings).acceptAll lines).2 := by
      rw [ea]
      exact List.mem_map_of_mem hm
    have nb := unbroken e.input hi
    have ns := settled e.input hi
    unfold Reply.GoesOn
    cases he : (Command.reply fuel settings e.input).ending with
    | answered => exact .inl rfl
    | refused => exact .inr rfl
    | crashed => exact absurd he nb
    | unsettled => exact absurd he ns
  refine ⟨entries, waiting, fun entries' waiting' => ⟨fun dv' => dv.unique dv', ?_⟩, ea,
    fun e hm => ?_, dv.run_eq go⟩
  · rintro ⟨rfl, rfl⟩
    exact dv
  · have alone : Divides [e] [] e.lines := by simp [Divides]
    have go' : ∀ e' ∈ [e], (Command.reply fuel settings e'.input).GoesOn := by
      simpa using go e hm
    have er := alone.run_eq go'
    rwa [List.flatMap_singleton] at er

/-- Of two backslashes at the end of a line the second continues it, and the first is a binder. An
input that is blank, one with a command that does not exist and one with a syntax error do not
disturb the others, and the last line is never answered. -/
theorem run_entry_by_entry_two_backslashes :
    let s : Settings := ⟨some 1, none, .warn⟩
    let lines := ["(\\\\", "x.x y)", " ", ":q", "(a", "z\\"]
    (start s).acceptAll lines = (⟨s, "z\n"⟩, ["(\\\nx.x y)", " ", ":q", "(a"]) ∧
      run 0 s lines =
        ⟨greeting ++ replies 0 s ["(\\\nx.x y)", " ", ":q", "(a"] ++ farewell, .success⟩ := by
  intro s lines
  have taken : (start s).acceptAll lines = (⟨s, "z\n"⟩, ["(\\\nx.x y)", " ", ":q", "(a"]) := by
    decide +kernel
  have unbroken : ∀ input ∈ ((start s).acceptAll lines).2,
      (Command.reply 0 s input).ending ≠ .crashed := by
    decide +kernel
  have settled : ∀ input ∈ ((start s).acceptAll lines).2,
      (Command.reply 0 s input).ending ≠ .unsettled := by
    decide +kernel
  obtain ⟨entries, waiting, -, ea, -, er⟩ := run_entry_by_entry unbroken settled
  have ei := (Prod.mk.inj (ea.symm.trans taken)).2
  refine ⟨taken, ?_⟩
  rw [er, ← ei, replies, List.flatMap_map]

end WeakHead.Session

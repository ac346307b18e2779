import WeakHead.Text.Cluster

/-!
# Backspaces

A backspace in a line takes back the last cluster that is still there; at the start of a line it
does nothing. Main statements: a line without a backspace stays as it is, and a cluster that is
taken back leaves the line as it was before.

The length of a cluster is remembered in one byte. Of a cluster that is longer only the remainder is
taken back, and the line is lost if that would leave a part of a character.
-/

namespace WeakHead.Text

/-- The backspace. -/
def backspace : Char := '\x08'

/-- The lengths of clusters are remembered modulo this number. -/
def lengthBound : Nat := 256

/-- A line while it is typed. -/
structure TypedLine where
  /-- What the line holds, from its end. -/
  text : List Char
  /-- The lengths of its clusters, from its end, as they are remembered. -/
  lengths : List Nat
deriving DecidableEq, Repr, Inhabited

/-- The number of bytes that a text takes. -/
def byteLength : List Char → Nat
  | [] => 0
  | c :: rest => c.utf8Size + byteLength rest

/-- A text, given from its end, without that many bytes, if these are whole characters. -/
def dropBytes : List Char → Nat → Option (List Char)
  | text, 0 => some text
  | [], _ + 1 => none
  | c :: rest, n + 1 => if c.utf8Size ≤ n + 1 then dropBytes rest (n + 1 - c.utf8Size) else none

namespace TypedLine

/-- The line before the first key. -/
def empty : TypedLine :=
  ⟨[], []⟩

/-- The line with one more cluster at its end. -/
def add (line : TypedLine) (cluster : List Char) : TypedLine :=
  ⟨cluster.reverse ++ line.text, byteLength cluster % lengthBound :: line.lengths⟩

/-- The line without its last cluster. -/
def takeBack (line : TypedLine) : Option TypedLine :=
  match line.lengths with
  | [] => some line
  | length :: lengths => (dropBytes line.text length).map fun text => ⟨text, lengths⟩

/-- What one cluster does to the line. -/
def type (line : TypedLine) (cluster : List Char) : Option TypedLine :=
  if cluster = [backspace] then line.takeBack else some (line.add cluster)

end TypedLine

/-- The line with its backspaces applied. -/
def applyBackspaces (line : List Char) : Option (List Char) :=
  ((clusters line).foldlM TypedLine.type TypedLine.empty).map fun typed => typed.text.reverse

/-- The length of two texts after each other. -/
theorem byteLength_append (first second : List Char) :
    byteLength (first ++ second) = byteLength first + byteLength second := by
  induction first with
  | nil => simp [byteLength]
  | cons c rest ih => simp [byteLength, ih, Nat.add_assoc]

/-- A text is as long in either direction. -/
theorem byteLength_reverse (text : List Char) : byteLength text.reverse = byteLength text := by
  induction text with
  | nil => rfl
  | cons c rest ih => simp [byteLength, byteLength_append, ih, Nat.add_comm]

/-- What is in front goes away by its length. -/
theorem dropBytes_append (front text : List Char) :
    dropBytes (front ++ text) (byteLength front) = some text := by
  induction front with
  | nil => simp [byteLength, dropBytes]
  | cons c rest ih =>
    have hpos : 0 < c.utf8Size := c.utf8Size_pos
    obtain ⟨n, hn⟩ : ∃ n, c.utf8Size + byteLength rest = n + 1 :=
      ⟨c.utf8Size + byteLength rest - 1, by omega⟩
    simp only [List.cons_append, byteLength, hn, dropBytes]
    rw [if_pos (by omega), show n + 1 - c.utf8Size = byteLength rest by omega, ih]

/-- A cluster whose length fits into one byte is taken back whole. -/
theorem TypedLine.takeBack_add {line : TypedLine} {cluster : List Char}
    (hl : byteLength cluster < lengthBound) : (line.add cluster).takeBack = some line := by
  simp only [TypedLine.takeBack, TypedLine.add, Nat.mod_eq_of_lt hl]
  rw [← byteLength_reverse, dropBytes_append, Option.map_some]

/-- Clusters among which there is no backspace are added one after the other. -/
theorem foldlM_type {parts : List (List Char)} (hp : [backspace] ∉ parts) (line : TypedLine) :
    ∃ typed, parts.foldlM TypedLine.type line = some typed ∧
      typed.text = parts.flatten.reverse ++ line.text := by
  induction parts generalizing line with
  | nil => exact ⟨line, rfl, rfl⟩
  | cons part parts ih =>
    obtain ⟨hne, hrest⟩ := not_or.1 (mt List.mem_cons.2 hp)
    obtain ⟨typed, hrun, htext⟩ := ih hrest (line.add part)
    refine ⟨typed, ?_, ?_⟩
    · simp [TypedLine.type, Ne.symm hne, hrun]
    · simp [htext, TypedLine.add]

/-- A line without a backspace stays as it is. -/
theorem applyBackspaces_of_not_mem {line : List Char} (hb : backspace ∉ line) :
    applyBackspaces line = some line := by
  have hp : [backspace] ∉ clusters line := by
    intro hmem
    apply hb
    rw [← flatten_clusters line]
    exact List.mem_flatten.2 ⟨_, hmem, List.mem_singleton.2 rfl⟩
  obtain ⟨typed, hrun, htext⟩ := foldlM_type hp TypedLine.empty
  unfold applyBackspaces
  rw [hrun, Option.map_some, htext, flatten_clusters]
  simp [TypedLine.empty]

/-- A line of the input as it is delivered, if it is not lost. -/
def deliver (line : String) : Option String :=
  (applyBackspaces line.toList).map String.ofList

/-- The lines before the first one that is lost, as they are delivered, and whether one is lost. -/
def deliverAll : List String → List String × Bool
  | [] => ([], false)
  | line :: rest =>
    match deliver line with
    | some delivered =>
      let (others, lost) := deliverAll rest
      (delivered :: others, lost)
    | none => ([], true)

end WeakHead.Text

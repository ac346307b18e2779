import Mathlib.Tactic.Common
import WeakHead.Diagnostic.Report

/-!
# Which reports can be written

A report looks up lines by their positions. The first line of a source starts at position zero, so
a source that has lines has one for every position in it; only an empty source has no lines.
-/

namespace WeakHead

lemma Text.exists_splitLines_eq_cons {cs : List Char} (ne : cs ≠ []) :
    ∃ line lines, splitLines cs = line :: lines := by
  obtain ⟨c, rest, rfl⟩ := List.exists_cons_of_ne_nil ne
  rw [splitLines]
  split
  · exact ⟨_, _, rfl⟩
  · split <;> exact ⟨_, _, rfl⟩

/-- A source with a character has a first line, and that line starts at position zero. -/
lemma exists_sourceLines_eq_cons {source : String} (ne : source ≠ "") :
    ∃ line lines, sourceLines source = line :: lines ∧ line.offset = 0 := by
  obtain ⟨piece, pieces, e⟩ :=
    Text.exists_splitLines_eq_cons fun e => ne (String.toList_eq_nil_iff.1 e)
  exact ⟨_, _, by rw [sourceLines, e, layLines], rfl⟩

/-- Where there is a first line, every position is in some line. -/
lemma exists_lineAt {line : SourceLine} (e : line.offset = 0) (lines position) :
    ∃ found, lineAt (line :: lines) position = .ok found := by
  have head : (line :: lines).takeWhile (fun line => decide (line.offset ≤ position)) =
      line :: lines.takeWhile (fun line => decide (line.offset ≤ position)) := by
    refine List.takeWhile_cons_of_pos (decide_eq_true ?_)
    rw [e]
    exact Nat.zero_le position
  rw [lineAt]
  split
  · exact ⟨none, rfl⟩
  · rw [head]
    exact ⟨_, rfl⟩

namespace Diagnostic

lemma exists_report (d : Diagnostic) {source : String} (ne : source ≠ "") :
    ∃ text, d.report source = .ok text := by
  obtain ⟨line, lines, el, ez⟩ := exists_sourceLines_eq_cons ne
  have place : ∃ text, placeText (sourceLines source) d.position = .ok text := by
    obtain ⟨found, e⟩ := exists_lineAt ez lines d.position
    rw [placeText, el, e]
    cases found <;> exact ⟨_, rfl⟩
  obtain ⟨place, ep⟩ := place
  obtain ⟨top, et⟩ := exists_lineAt ez lines ((d.labels.map (·.span.start)).min?.getD 0)
  obtain ⟨bottom, eb⟩ := exists_lineAt ez lines
    (max (((d.labels.map (·.span.stop)).max?.getD 0) - 1)
      ((d.labels.map (·.span.start)).min?.getD 0))
  rw [← el] at et eb
  simp only [report, ep, et, eb]
  exact ⟨_, rfl⟩

/-- On an empty source there is no line for the first position. -/
lemma report_empty {d : Diagnostic} (e : d.position = 0) : d.report "" = .error .noLines := by
  have place : placeText (sourceLines "") d.position = .error .noLines := by
    rw [e]
    rfl
  simp only [report, place]
  rfl

end Diagnostic

end WeakHead

import Ensemble.Proofs.Delta.Written
import Ensemble.Proofs.Text.Line
import Ensemble.Transcript

/-!
Documents that hold deltas, as any writer may put them together: each delta on a line of its own,
framed by blanks and perhaps by a `data:` mark, with lines between them that hold nothing or the
closing sentinel, and with line ends of both kinds.  Reading such a document gives the deltas again,
in their order.
-/

namespace Ensemble.Transcript

open Ensemble.Text

/-! ## Documents -/

/-- Blanks that end no line. -/
structure Blanks where
  chars : List Char
  blank : chars.all isBlank
  unbroken : '\n' ∉ chars

/-- What a line holds inside its frame. -/
inductive Content where
  | delta (d : Delta)
  | sentinel
  | nothing

def Content.text : Content → List Char
  | .delta d => d.written
  | .sentinel => Transcript.sentinel
  | .nothing => []

def Content.delta? : Content → Option Delta
  | .delta d => some d
  | _ => none

structure Line where
  before : Blanks
  -- The blanks after the `data:` mark, if the line has one.
  mark : Option Blanks
  content : Content
  after : Blanks

def Line.markText (l : Line) : List Char :=
  l.mark.elim [] fun gap => dataMark ++ gap.chars

def Line.text (l : Line) : List Char :=
  l.before.chars ++ (l.markText ++ l.content.text ++ l.after.chars)

inductive LineEnd where
  | lineFeed
  | carriageReturn

/-- What stands before the line feed. -/
def LineEnd.text : LineEnd → List Char
  | .lineFeed => []
  | .carriageReturn => ['\r']

/-- Lines with their ends, and perhaps a last line that has none. -/
structure Document where
  ended : List (Line × LineEnd)
  last : Option Line

namespace Document

def endedText (ended : List (Line × LineEnd)) : List Char :=
  ended.flatMap fun l => l.1.text ++ l.2.text ++ ['\n']

def text (doc : Document) : List Char :=
  endedText doc.ended ++ doc.last.elim [] Line.text

/-- The deltas of a document in their order. -/
def deltas (doc : Document) : List Delta :=
  (doc.ended.map Prod.fst ++ doc.last.toList).filterMap fun l => l.content.delta?

end Document

/-! ## One line -/

theorem Content.bare_text (c : Content) : Bare c.text := by
  cases c with
  | delta d =>
    rw [text, Delta.written_eq]
    exact bare_of_ends (by decide) (by decide) _
  | sentinel => exact bare_of_ends (by decide) (by decide) ['D', 'O', 'N', 'E']
  | nothing => exact bare_nil

theorem Content.unbroken (c : Content) : '\n' ∉ c.text := by
  cases c with
  | delta d =>
    intro h
    exact absurd (Delta.not_control_of_mem_written h) (by decide)
  | sentinel => decide
  | nothing => nofun

theorem Content.not_marked (c : Content) : dataMark.isPrefixOf c.text = false := by
  cases c with
  | delta d =>
    rw [text, Delta.written_eq]
    rfl
  | sentinel => rfl
  | nothing => rfl

theorem Line.unbroken (l : Line) : '\n' ∉ l.text := by
  have hmark : '\n' ∉ l.markText := by
    rw [markText]
    cases l.mark with
    | none => nofun
    | some gap =>
      have hgap := gap.unbroken
      simp [dataMark, hgap]
  simp [text, l.before.unbroken, hmark, l.content.unbroken, l.after.unbroken]

/-- What stands in front of the mark and behind the content is trimmed away. -/
theorem trimChars_marked (gap : Blanks) (c : Content) (after : Blanks) :
    ∃ inner, trimChars (dataMark ++ gap.chars ++ c.text ++ after.chars) = dataMark ++ inner ∧
      dropBlanks inner = c.text := by
  refine ⟨dropLastBlanks (gap.chars ++ c.text ++ after.chars), ?_, ?_⟩
  · have hhead : dropBlanks (dataMark ++ gap.chars ++ c.text ++ after.chars) =
        dataMark ++ (gap.chars ++ c.text ++ after.chars) := by
      rw [List.append_assoc, List.append_assoc, ← List.append_assoc gap.chars]
      exact dropBlanks_eq_self (by simp [dataMark]; decide)
    show dropLastBlanks (dropBlanks _) = _
    rw [hhead, dataMark]
    simp only [List.cons_append, List.nil_append]
    rw [dropLastBlanks_cons (by decide), dropLastBlanks_cons (by decide),
      dropLastBlanks_cons (by decide), dropLastBlanks_cons (by decide),
      dropLastBlanks_cons (by decide)]
  · rw [← trimChars_eq, trimChars_append_of_all after.blank, trimChars_of_all_append gap.blank,
      c.bare_text.trimChars_eq_self]

/-- Whatever the frame is, the payload of a line is what it holds. -/
theorem payload_eq {line : String} {l : Line} (h : trimChars line.toList = trimChars l.text) :
    payload line = l.content.text := by
  rw [payload, h, Line.text, trimChars_of_all_append l.before.blank, Line.markText]
  cases l.mark with
  | none =>
    have htrim : trimChars (l.content.text ++ l.after.chars) = l.content.text := by
      rw [trimChars_append_of_all l.after.blank, l.content.bare_text.trimChars_eq_self]
    simp only [Option.elim_none, List.nil_append, htrim, l.content.not_marked]
    rfl
  | some gap =>
    obtain ⟨inner, htrim, hinner⟩ := trimChars_marked gap l.content l.after
    simp only [Option.elim_some, htrim]
    rw [if_pos (List.isPrefixOf_iff_prefix.mpr (List.prefix_append dataMark inner)),
      List.drop_left, hinner]

theorem payload?_eq {line : String} {l : Line} (h : trimChars line.toList = trimChars l.text) :
    payload? line = l.content.delta?.map fun d => String.ofList d.written := by
  rw [payload?, payload_eq h]
  cases l.content with
  | delta d =>
    have hne : ¬ (d.written.isEmpty || d.written == sentinel) = true := by
      rw [Delta.written_eq]
      simp [sentinel]
    exact if_neg hne
  | sentinel => rfl
  | nothing => rfl

/-! ## All lines -/

theorem readLines_cons (number : Nat) {line : String} {l : Line} (rest : List String)
    (h : trimChars line.toList = trimChars l.text) :
    readLines number (line :: rest) =
      (readLines (number + 1) rest).map fun ds => l.content.delta?.toList ++ ds := by
  rw [readLines, payload?_eq h]
  cases l.content.delta? with
  | none =>
    show readLines (number + 1) rest = _
    cases readLines (number + 1) rest <;> rfl
  | some d =>
    simp only [Option.map_some, Delta.ofLine?_written]
    cases readLines (number + 1) rest <;> rfl

theorem linesOf_ended (l : Line) (e : LineEnd) (rest : List Char) :
    linesOf (l.text ++ e.text ++ ['\n'] ++ rest) =
      dropReturn (l.text ++ e.text) :: linesOf rest := by
  have hunbroken : '\n' ∉ l.text ++ e.text := by
    have hline := l.unbroken
    cases e <;> simp [LineEnd.text, hline]
  rw [List.append_assoc _ ['\n'], List.singleton_append, linesOf_append_cons hunbroken]

theorem trimChars_ended (l : Line) (e : LineEnd) :
    trimChars (dropReturn (l.text ++ e.text)) = trimChars l.text := by
  rw [trimChars_dropReturn]
  apply trimChars_append_of_all
  cases e <;> decide

theorem readLines_last (number : Nat) (last : Option Line) :
    readLines number ((linesOf (last.elim [] Line.text)).map String.ofList) =
      .ok (last.toList.filterMap fun l => l.content.delta?) := by
  cases last with
  | none => rfl
  | some l =>
    rw [Option.elim_some, linesOf_of_not_mem l.unbroken]
    by_cases hempty : l.text.isEmpty
    · -- a line without any characters holds nothing
      have hnone : l.content.delta? = none := by
        cases hc : l.content with
        | delta d => simp [Line.text, hc, Content.text, Delta.written_eq] at hempty
        | sentinel => rfl
        | nothing => rfl
      rw [if_pos hempty]
      simp [hnone, readLines]
    · have htrim : trimChars (String.ofList l.text).toList = trimChars l.text := by
        rw [String.toList_ofList]
      rw [if_neg hempty, List.map_singleton, readLines_cons number [] htrim, readLines,
        Option.toList_some, List.filterMap_cons]
      cases l.content.delta? <;> rfl

theorem readLines_text (number : Nat) (doc : Document) :
    readLines number ((linesOf doc.text).map String.ofList) = .ok doc.deltas := by
  obtain ⟨ended, last⟩ := doc
  induction ended generalizing number with
  | nil => exact readLines_last number last
  | cons l ended ih =>
    obtain ⟨l, e⟩ := l
    have htext : Document.text ⟨(l, e) :: ended, last⟩ =
        l.text ++ e.text ++ ['\n'] ++ Document.text ⟨ended, last⟩ := by
      simp [Document.text, Document.endedText]
    have hdeltas : Document.deltas ⟨(l, e) :: ended, last⟩ =
        l.content.delta?.toList ++ Document.deltas ⟨ended, last⟩ := by
      simp only [Document.deltas, List.map_cons, List.cons_append, List.filterMap_cons]
      cases l.content.delta? <;> rfl
    have htrim : trimChars (String.ofList (dropReturn (l.text ++ e.text))).toList =
        trimChars l.text := by
      rw [String.toList_ofList, trimChars_ended]
    rw [htext, linesOf_ended, List.map_cons, readLines_cons number _ htrim, ih, hdeltas]
    rfl

/-- A document is read as the deltas that it holds. -/
theorem read_document (doc : Document) : read (String.ofList doc.text) = .ok doc.deltas := by
  rw [read, lines_eq]
  exact readLines_text 1 doc

end Ensemble.Transcript

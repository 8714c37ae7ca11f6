import Ensemble.Proofs.Text.Line
import Ensemble.Transcript

/-!
Two transcripts in one document.  A line feed between two documents keeps their lines apart, so they
are read one after the other: what is wrong with the first is reported as if it stood alone, and
what is wrong with the second moves down by the lines in front of it.  Either way the fault is that
of the first line that carries no delta, counted among all lines.
-/

namespace Ensemble.Transcript

open Ensemble.Text

/-! ## Lines and the text they carry -/

/-- The text that a line carries; the lines are counted from 1. -/
def textAt (document : String) : Nat → Option String
  | 0 => none
  | i + 1 => ((lines document)[i]?).bind payload?

/-- The first line that carries something that is no delta, and what is wrong with it. -/
def Blames (document : String) (fault : Fault) : Prop :=
  (∃ text, textAt document fault.line = some text ∧ Delta.ofLine? text = .error fault.cause) ∧
    ∀ number < fault.line, ∀ text ∈ textAt document number, ∃ d, Delta.ofLine? text = .ok d

/-- The same fault behind some more lines. -/
def Fault.below (f : Fault) (count : Nat) : Fault :=
  { f with line := f.line + count }

theorem payload?_of_trimChars {line line' : String}
    (h : trimChars line.toList = trimChars line'.toList) : payload? line = payload? line' := by
  rw [payload?, payload?, payload, payload, h]

/-- A line end of either kind leaves the text of a line alone. -/
theorem payload?_dropReturn (cs : List Char) :
    payload? (String.ofList (dropReturn cs)) = payload? (String.ofList cs) := by
  apply payload?_of_trimChars
  rw [String.toList_ofList, String.toList_ofList, trimChars_dropReturn]

/-- What a line carries can be told from the pieces between line feeds. -/
theorem bind_getElem?_linesOfPieces (ps : List (List Char)) (i : Nat) :
    (((linesOfPieces ps).map String.ofList)[i]?).bind payload? =
      ((ps.map String.ofList)[i]?).bind payload? := by
  induction ps using linesOfPieces.induct generalizing i with
  | case1 => rfl
  | case2 last hempty =>
    -- the piece that is no line carries nothing
    rw [linesOfPieces, if_pos hempty, List.isEmpty_iff.mp hempty]
    cases i <;> rfl
  | case3 last hempty => rw [linesOfPieces, if_neg hempty]
  | case4 p ps hne ih =>
    rw [linesOfPieces.eq_3 p ps hne, List.map_cons, List.map_cons]
    cases i with
    | zero => exact payload?_dropReturn p
    | succ i => exact ih i

theorem textAt_succ (document : String) (i : Nat) :
    textAt document (i + 1) =
      (((pieces '\n' document.toList).map String.ofList)[i]?).bind payload? :=
  bind_getElem?_linesOfPieces (pieces '\n' document.toList) i

theorem lt_length_of_textAt {document : String} {i : Nat} {text : String}
    (h : textAt document (i + 1) = some text) : i < (pieces '\n' document.toList).length := by
  rw [textAt_succ] at h
  obtain ⟨line, hline, -⟩ := Option.bind_eq_some_iff.mp h
  obtain ⟨hi, -⟩ := List.getElem?_eq_some_iff.mp hline
  rwa [List.length_map] at hi

/-! ## The fault of a document -/

theorem sound_or_faulty (line : String) :
    (∀ text ∈ payload? line, ∃ d, Delta.ofLine? text = .ok d) ∨
      ∃ text cause, payload? line = some text ∧ Delta.ofLine? text = .error cause := by
  cases payload? line with
  | none => exact .inl nofun
  | some text =>
    cases hd : Delta.ofLine? text with
    | ok d => exact .inl fun _ hmem => ⟨d, by rw [← Option.some.inj hmem, hd]⟩
    | error cause => exact .inr ⟨text, cause, rfl, hd⟩

theorem readLines_of_faulty (number : Nat) {line text : String} {cause : Delta.Fault}
    (hline : payload? line = some text) (hcause : Delta.ofLine? text = .error cause)
    (ls : List String) : readLines number (line :: ls) = .error ⟨number, cause⟩ := by
  rw [readLines, hline]
  simp only [hcause]

theorem readLines_of_sound (number : Nat) {line : String}
    (hline : ∀ text ∈ payload? line, ∃ d, Delta.ofLine? text = .ok d) (ls : List String)
    (fault : Fault) :
    readLines number (line :: ls) = .error fault ↔ readLines (number + 1) ls = .error fault := by
  rw [readLines]
  cases hp : payload? line with
  | none => exact Iff.rfl
  | some text =>
    obtain ⟨d, hd⟩ := hline text hp
    simp only [hd]
    cases readLines (number + 1) ls <;> simp

theorem readLines_eq_error_iff (number : Nat) (ls : List String) (fault : Fault) :
    readLines number ls = .error fault ↔
      ∃ i, fault.line = number + i ∧
        (∃ text, (ls[i]?).bind payload? = some text ∧
          Delta.ofLine? text = .error fault.cause) ∧
        ∀ j < i, ∀ text ∈ (ls[j]?).bind payload?, ∃ d, Delta.ofLine? text = .ok d := by
  -- the first line is at fault, or it is fine and the fault is that of the lines behind it
  induction ls generalizing number with
  | nil => simp [readLines]
  | cons line ls ih =>
    rcases sound_or_faulty line with hsound | ⟨text, cause, htext, hcause⟩
    · rw [readLines_of_sound number hsound, ih]
      constructor
      · rintro ⟨i, hline, hfault, hbefore⟩
        refine ⟨i + 1, by omega, hfault, fun j hj => ?_⟩
        cases j with
        | zero => exact hsound
        | succ j => exact hbefore j (Nat.lt_of_succ_lt_succ hj)
      · rintro ⟨i, hline, ⟨text, htext, hcause⟩, hbefore⟩
        cases i with
        | zero =>
          obtain ⟨d, hd⟩ := hsound text htext
          rw [hd] at hcause
          cases hcause
        | succ i =>
          refine ⟨i, by omega, ⟨text, htext, hcause⟩, fun j hj => ?_⟩
          exact hbefore (j + 1) (Nat.succ_lt_succ hj)
    · rw [readLines_of_faulty number htext hcause]
      constructor
      · intro h
        rw [← Except.error.inj h]
        exact ⟨0, rfl, ⟨text, htext, hcause⟩, nofun⟩
      · rintro ⟨i, hline, ⟨text', htext', hcause'⟩, hbefore⟩
        cases i with
        | zero =>
          obtain rfl : text = text' := Option.some.inj (htext.symm.trans htext')
          obtain rfl : cause = fault.cause := Except.error.inj (hcause.symm.trans hcause')
          rw [← Nat.add_zero number, ← hline]
        | succ i =>
          -- the first line would have to be fine
          obtain ⟨d, hd⟩ := hbefore 0 (Nat.succ_pos i) text htext
          rw [hd] at hcause
          cases hcause

theorem read_eq_error_iff (document : String) (fault : Fault) :
    read document = .error fault ↔ Blames document fault := by
  rw [read, readLines_eq_error_iff, Blames]
  constructor
  · rintro ⟨i, hline, htext, hbefore⟩
    rw [hline, Nat.add_comm 1 i]
    refine ⟨htext, fun number hlt text hmem => ?_⟩
    cases number with
    | zero => cases hmem
    | succ j => exact hbefore j (Nat.lt_of_succ_lt_succ hlt) text hmem
  · rintro ⟨⟨text, htext, herror⟩, hbefore⟩
    obtain ⟨i, hi⟩ : ∃ i, fault.line = i + 1 := by
      cases hline : fault.line with
      | zero =>
        rw [hline] at htext
        cases htext
      | succ i => exact ⟨i, rfl⟩
    rw [hi] at htext hbefore
    refine ⟨i, by omega, ⟨text, htext, herror⟩, fun j hj => ?_⟩
    exact hbefore (j + 1) (Nat.succ_lt_succ hj)

/-! ## One document after the other -/

theorem readLines_append (number : Nat) (ls ls' : List String) :
    readLines number (ls ++ ls') =
      match readLines number ls, readLines (number + ls.length) ls' with
      | .error fault, _ => .error fault
      | .ok _, .error fault => .error fault
      | .ok ds, .ok ds' => .ok (ds ++ ds') := by
  induction ls generalizing number with
  | nil =>
    show readLines number ls' = _
    cases readLines number ls' <;> rfl
  | cons line ls ih =>
    have hlength : number + (line :: ls).length = number + 1 + ls.length := by
      rw [List.length_cons]
      omega
    rw [List.cons_append, readLines, readLines, hlength]
    cases payload? line with
    | none => exact ih (number + 1)
    | some text =>
      cases hd : Delta.ofLine? text with
      | error cause => simp only [hd]
      | ok d =>
        simp only [hd, ih (number + 1)]
        cases readLines (number + 1) ls with
        | error fault => rfl
        | ok ds => cases readLines (number + 1 + ls.length) ls' <;> rfl

theorem readLines_later (number count : Nat) (ls : List String) :
    readLines (number + count) ls = (readLines number ls).mapError (Fault.below · count) := by
  induction ls generalizing number with
  | nil => rfl
  | cons line ls ih =>
    have hnext : number + count + 1 = number + 1 + count := by omega
    rw [readLines, readLines, hnext, ih]
    cases payload? line with
    | none => rfl
    | some text =>
      cases hd : Delta.ofLine? text with
      | error cause =>
        simp only [hd]
        rfl
      | ok d =>
        simp only [hd]
        cases readLines (number + 1) ls <;> rfl

/-- Reading pays no heed to a last piece that is no line. -/
theorem readLines_linesOfPieces (number : Nat) (ps : List (List Char)) :
    readLines number ((linesOfPieces ps).map String.ofList) =
      readLines number (ps.map String.ofList) := by
  induction ps using linesOfPieces.induct generalizing number with
  | case1 => rfl
  | case2 last hempty =>
    rw [linesOfPieces, if_pos hempty, List.isEmpty_iff.mp hempty]
    rfl
  | case3 last hempty => rw [linesOfPieces, if_neg hempty]
  | case4 p ps hne ih =>
    rw [linesOfPieces.eq_3 p ps hne, List.map_cons, List.map_cons, readLines, readLines,
      payload?_dropReturn, ih]

theorem pieces_joined (a b : String) :
    pieces '\n' (a ++ "\n" ++ b).toList = pieces '\n' a.toList ++ pieces '\n' b.toList := by
  have htext : (a ++ "\n" ++ b).toList = a.toList ++ '\n' :: b.toList := by simp
  rw [htext, pieces_append]

theorem read_eq (document : String) :
    read document = readLines 1 ((pieces '\n' document.toList).map String.ofList) :=
  readLines_linesOfPieces 1 (pieces '\n' document.toList)

theorem read_append (a b : String) :
    read (a ++ "\n" ++ b) =
      match read a, read b with
      | .error fault, _ => .error fault
      | .ok _, .error fault => .error (fault.below (a.toList.count '\n' + 1))
      | .ok da, .ok db => .ok (da ++ db) := by
  rw [read_eq, read_eq, read_eq, pieces_joined, List.map_append, readLines_append, List.length_map,
    length_pieces, readLines_later]
  cases readLines 1 ((pieces '\n' a.toList).map String.ofList) with
  | error fault => rfl
  | ok da => cases readLines 1 ((pieces '\n' b.toList).map String.ofList) <;> rfl

theorem textAt_append_left (a b : String) {number : Nat}
    (h : number ≤ a.toList.count '\n' + 1) :
    textAt (a ++ "\n" ++ b) number = textAt a number := by
  cases number with
  | zero => rfl
  | succ i =>
    have hi : i < ((pieces '\n' a.toList).map String.ofList).length := by
      rw [List.length_map, length_pieces]
      exact h
    rw [textAt_succ, textAt_succ, pieces_joined, List.map_append, List.getElem?_append_left hi]

theorem textAt_append_right (a b : String) {number : Nat} (h : 0 < number) :
    textAt (a ++ "\n" ++ b) (number + 1 + a.toList.count '\n') = textAt b number := by
  cases number with
  | zero => cases h
  | succ i =>
    have hplace : i + 1 + 1 + a.toList.count '\n' =
        ((pieces '\n' a.toList).map String.ofList).length + i + 1 := by
      rw [List.length_map, length_pieces]
      omega
    rw [hplace, textAt_succ, textAt_succ, pieces_joined, List.map_append,
      List.getElem?_append_right (Nat.le_add_right _ i), Nat.add_sub_cancel_left]

/-- The fault of a document is at one of its lines. -/
theorem Blames.line_bounds {document : String} {fault : Fault} (h : Blames document fault) :
    0 < fault.line ∧ fault.line ≤ document.toList.count '\n' + 1 := by
  obtain ⟨⟨text, htext, -⟩, -⟩ := h
  cases hline : fault.line with
  | zero =>
    rw [hline] at htext
    cases htext
  | succ i =>
    rw [hline] at htext
    have hlt := lt_length_of_textAt htext
    rw [length_pieces] at hlt
    exact ⟨Nat.succ_pos i, hlt⟩

/-- With a line feed between them two documents are read one after the other.  A fault of the first
is reported as it stands, and a fault of the second one at the line to which its text has moved; the
fault is always that of the first line that carries no delta. -/
theorem read_joined (a b : String) :
    (∀ fault, read a = .error fault →
      read (a ++ "\n" ++ b) = .error fault ∧
        textAt (a ++ "\n" ++ b) fault.line = textAt a fault.line) ∧
    (∀ da db, read a = .ok da → read b = .ok db → read (a ++ "\n" ++ b) = .ok (da ++ db)) ∧
    (∀ da k cause, read a = .ok da → read b = .error ⟨k, cause⟩ →
      read (a ++ "\n" ++ b) = .error ⟨k + 1 + a.toList.count '\n', cause⟩ ∧
        textAt (a ++ "\n" ++ b) (k + 1 + a.toList.count '\n') = textAt b k) ∧
    ∀ document fault, read document = .error fault ↔ Blames document fault := by
  refine ⟨fun fault ha => ?_, fun da db ha hb => ?_, fun da k cause ha hb => ?_,
    read_eq_error_iff⟩
  · have hbounds := ((read_eq_error_iff a fault).mp ha).line_bounds
    refine ⟨?_, textAt_append_left a b hbounds.2⟩
    rw [read_append, ha]
  · rw [read_append, ha, hb]
  · have hbounds := ((read_eq_error_iff b ⟨k, cause⟩).mp hb).line_bounds
    refine ⟨?_, textAt_append_right a b hbounds.1⟩
    have hplace : k + 1 + a.toList.count '\n' = k + (a.toList.count '\n' + 1) := by omega
    rw [read_append, ha, hb, hplace]
    rfl

/-- A sentinel without a line end, a blank line and a line end of two characters count as lines. -/
theorem read_joined_skipped_lines :
    let a := "\x7b\"text\":\"a\"\x7d\r\n\ndata: [DONE]"
    let b := "\n\x7b\"text\":\"b\"\x7d\n[]\n"
    let da : List Delta := [.ofText "a"]
    read a = .ok da ∧ read b = .error ⟨3, .notObject⟩ ∧
      read (a ++ "\n" ++ a) = .ok (da ++ da) ∧
      read (a ++ "\n" ++ b) = .error ⟨6, .notObject⟩ ∧
      read (b ++ "\n" ++ a) = .error ⟨3, .notObject⟩ := by
  intro a b da
  have ha : read a = .ok da := by decide +kernel
  have hb : read b = .error ⟨3, .notObject⟩ := by decide +kernel
  have hplace : 3 + 1 + a.toList.count '\n' = 6 := by decide +kernel
  have hjoined := ((read_joined a b).2.2.1 da 3 .notObject ha hb).1
  rw [hplace] at hjoined
  exact ⟨ha, hb, (read_joined a a).2.1 da da ha ha, hjoined, ((read_joined b a).1 _ hb).1⟩

end Ensemble.Transcript

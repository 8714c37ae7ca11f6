import Ensemble.Json.Reader
import Ensemble.Text.Blank

/-!
What JSON text cannot be: a blank text holds no value, whichever blanks it is made of.
-/

namespace Ensemble.Json

open Ensemble.Text

theorem isDigit_of_isBlank {c : Char} (h : isBlank c) : isDigit c = false := by
  have hrange : ∃ r ∈ blankRanges, r.1 ≤ c.toNat ∧ c.toNat ≤ r.2 := by
    simpa [isBlank] using h
  have hout : c.toNat < 0x30 ∨ 0x39 < c.toNat := by
    simp only [blankRanges, List.mem_cons, List.not_mem_nil, or_false, exists_eq_or_imp,
      exists_eq_left] at hrange
    omega
  rw [isDigit, Bool.and_eq_false_iff, decide_eq_false_iff_not, decide_eq_false_iff_not]
  rcases hout with hlt | hgt
  · exact Or.inl (fun hle => absurd (show 0x30 ≤ c.toNat from hle) (by omega))
  · exact Or.inr (fun hle => absurd (show c.toNat ≤ 0x39 from hle) (by omega))

theorem Numeral.scan?_of_isBlank {cs : List Char} (h : cs.all isBlank) : scan? cs = none := by
  cases cs with
  | nil => rfl
  | cons c cs =>
    have hc : isBlank c = true := List.all_eq_true.mp h c List.mem_cons_self
    have hspan : spanDigits (c :: cs) = ([], c :: cs) := by
      rw [spanDigits, List.takeWhile_cons, List.dropWhile_cons, isDigit_of_isBlank hc]
      rfl
    have hwhole : scanWhole? (c :: cs) = none := by
      rw [scanWhole?, hspan]
    have hminus : c ≠ '-' := by
      rintro rfl
      exact absurd hc (by decide)
    rw [scan?, hwhole]
    exact fun rest heq => hminus (List.cons.inj heq).1

theorem readTree_of_isBlank (depth allowed : Nat) {cs : List Char} (h : cs.all isBlank) :
    readTree depth allowed cs = none := by
  cases depth with
  | zero => rfl
  | succ depth =>
    have hrest : (skipSpace cs).all isBlank := by
      rw [List.all_eq_true] at h ⊢
      exact fun c hc => h c ((List.dropWhile_sublist isSpace).subset hc)
    -- every form but a numeral begins with a character that is not blank
    have hhead : ∀ c rest, skipSpace cs = c :: rest → isBlank c := by
      intro c rest heq
      rw [heq] at hrest
      exact List.all_eq_true.mp hrest c List.mem_cons_self
    rw [readTree]
    split
    next heq => exact absurd (hhead _ _ heq) (by decide)
    next heq => exact absurd (hhead _ _ heq) (by decide)
    next heq => exact absurd (hhead _ _ heq) (by decide)
    next heq => exact absurd (hhead _ _ heq) (by decide)
    next heq => exact absurd (hhead _ _ heq) (by decide)
    next heq => exact absurd (hhead _ _ heq) (by decide)
    next => rw [Numeral.scan?_of_isBlank hrest]

theorem ofText?_of_isBlankText {s : String} (h : isBlankText s) : ofText? s = none := by
  rw [ofText?, ofChars?, Tree.ofChars?, readTree_of_isBlank _ _ h]
  rfl

end Ensemble.Json

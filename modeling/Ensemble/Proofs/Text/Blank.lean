import Ensemble.Text.Blank
import Mathlib.Data.List.TakeWhile

/-!
What trimming leaves: nothing of a blank text, and of a text with blanks around it the text itself,
if that begins and ends with no blank.
-/

namespace Ensemble.Text

theorem dropBlanks_eq_nil_iff (cs : List Char) : dropBlanks cs = [] ↔ cs.all isBlank := by
  rw [dropBlanks, List.dropWhile_eq_nil_iff, List.all_eq_true]

theorem trimChars_eq_nil_iff (cs : List Char) : trimChars cs = [] ↔ cs.all isBlank := by
  rw [trimChars, List.reverse_eq_nil_iff, dropBlanks_eq_nil_iff, List.all_reverse,
    ← dropBlanks_eq_nil_iff cs]
  constructor
  · intro h
    by_contra hne
    have hhead : ¬ isBlank ((dropBlanks cs).head hne) := by
      simpa [dropBlanks] using List.head_dropWhile_not isBlank (l := cs) hne
    exact hhead (List.all_eq_true.mp h _ (List.head_mem hne))
  · intro h
    rw [h]
    rfl

theorem isEmpty_trim (s : String) : (trim s).isEmpty = isBlankText s := by
  have h := trimChars_eq_nil_iff s.toList
  rw [Bool.eq_iff_iff, String.isEmpty_iff, trim, isBlankText, ← h, ← String.toList_inj]
  simp

/-! ## Blanks around a text -/

/-- The characters up to the last one that is not blank. -/
def dropLastBlanks (cs : List Char) : List Char :=
  (dropBlanks cs.reverse).reverse

/-- No blank at either end. -/
def Bare (cs : List Char) : Prop :=
  (∀ c ∈ cs.head?, isBlank c = false) ∧ ∀ c ∈ cs.getLast?, isBlank c = false

theorem bare_nil : Bare [] := ⟨nofun, nofun⟩

theorem bare_of_ends {a b : Char} (ha : isBlank a = false) (hb : isBlank b = false)
    (cs : List Char) : Bare (a :: cs ++ [b]) := by
  rw [Bare, List.getLast?_concat]
  simp [ha, hb]

theorem dropBlanks_append_of_all {b : List Char} (hb : b.all isBlank) (cs : List Char) :
    dropBlanks (b ++ cs) = dropBlanks cs :=
  List.dropWhile_append_of_pos (List.all_eq_true.mp hb)

theorem dropLastBlanks_append_of_all {a : List Char} (ha : a.all isBlank) (cs : List Char) :
    dropLastBlanks (cs ++ a) = dropLastBlanks cs := by
  have hreverse : a.reverse.all isBlank := by rwa [List.all_reverse]
  rw [dropLastBlanks, List.reverse_append, dropBlanks_append_of_all hreverse, dropLastBlanks]

theorem dropBlanks_eq_self {cs : List Char} (h : ∀ c ∈ cs.head?, isBlank c = false) :
    dropBlanks cs = cs := by
  cases cs with
  | nil => rfl
  | cons c cs => rw [dropBlanks, List.dropWhile_cons, h c rfl, if_neg Bool.false_ne_true]

theorem dropLastBlanks_eq_self {cs : List Char} (h : ∀ c ∈ cs.getLast?, isBlank c = false) :
    dropLastBlanks cs = cs := by
  rw [dropLastBlanks, dropBlanks_eq_self (by rwa [List.head?_reverse]), List.reverse_reverse]

/-- A first character stays unless everything is blank. -/
theorem dropLastBlanks_cons_cases (c : Char) (cs : List Char) :
    dropLastBlanks (c :: cs) = c :: dropLastBlanks cs ∨
      isBlank c = true ∧ dropLastBlanks cs = [] ∧ dropLastBlanks (c :: cs) = [] := by
  rw [dropLastBlanks, List.reverse_cons, dropBlanks, List.dropWhile_append, dropLastBlanks,
    dropBlanks]
  by_cases hempty : (cs.reverse.dropWhile isBlank).isEmpty
  · rw [if_pos hempty, List.isEmpty_iff.mp hempty]
    by_cases hc : isBlank c = true
    · simp [hc]
    · simp [hc]
  · rw [if_neg hempty]
    simp

theorem dropLastBlanks_cons {c : Char} (hc : isBlank c = false) (cs : List Char) :
    dropLastBlanks (c :: cs) = c :: dropLastBlanks cs := by
  rcases dropLastBlanks_cons_cases c cs with h | ⟨hblank, -⟩
  · exact h
  · rw [hc] at hblank
    cases hblank

/-- It does not matter which end is trimmed first. -/
theorem trimChars_eq (cs : List Char) : trimChars cs = dropBlanks (dropLastBlanks cs) := by
  show dropLastBlanks (dropBlanks cs) = _
  induction cs with
  | nil => rfl
  | cons c cs ih =>
    by_cases hc : isBlank c = true
    · have hdrop (ds : List Char) : dropBlanks (c :: ds) = dropBlanks ds := by
        rw [dropBlanks, List.dropWhile_cons, if_pos hc, dropBlanks]
      rw [hdrop, ih]
      rcases dropLastBlanks_cons_cases c cs with h | ⟨-, hcs, h⟩
      · rw [h, hdrop]
      · rw [h, hcs]
    · have hc : isBlank c = false := by simpa using hc
      rw [dropLastBlanks_cons hc, dropBlanks_eq_self (by simpa using hc),
        dropBlanks_eq_self (by simpa using hc), dropLastBlanks_cons hc]

theorem trimChars_append_of_all {a : List Char} (ha : a.all isBlank) (cs : List Char) :
    trimChars (cs ++ a) = trimChars cs := by
  rw [trimChars_eq, dropLastBlanks_append_of_all ha, ← trimChars_eq]

theorem trimChars_of_all_append {b : List Char} (hb : b.all isBlank) (cs : List Char) :
    trimChars (b ++ cs) = trimChars cs := by
  rw [trimChars, dropBlanks_append_of_all hb, trimChars]

theorem Bare.trimChars_eq_self {cs : List Char} (h : Bare cs) : trimChars cs = cs := by
  rw [trimChars_eq, dropLastBlanks_eq_self h.2, dropBlanks_eq_self h.1]

end Ensemble.Text

import Ensemble.Proofs.Json.Reader
import Ensemble.Proofs.Text.Blank
import Ensemble.Proofs.Workflow.Grammar

/-!
Durations in whole numbers.  They are added up in doubles, but as long as the exact sum is below
2^53 every number, product and partial sum on the way is a whole number below 2^53, and none of
these is rounded.
-/

namespace Ensemble.Duration

open Ensemble.Text

/-- A whole number, in digits of which the first ones may be zeros, of a unit. -/
structure Amount where
  digits : List Char
  unit : String
  scale : Nat
  allDigits : digits.all isDigit = true
  nonempty : digits ≠ []
  known : (unit, scale) ∈ units

namespace Amount

def nanos (a : Amount) : Nat :=
  ofDigits a.digits * a.scale

def chars (a : Amount) : List Char :=
  a.digits ++ a.unit.toList

def component (a : Amount) : Component :=
  ⟨a.digits, a.unit.toList⟩

/-- The amounts one after the other. -/
def written (as : List Amount) : List Char :=
  as.flatMap chars

/-- The exact number of nanoseconds. -/
def total : List Amount → Nat
  | [] => 0
  | a :: as => a.nanos + total as

variable (a : Amount) (as : List Amount)

theorem written_cons : written (a :: as) = a.digits ++ a.unit.toList ++ written as := rfl

/-! ## One amount -/

theorem isDigit_of_mem : ∀ c ∈ a.digits, isDigit c = true :=
  List.all_eq_true.mp a.allDigits

/-- What the text of a unit can begin and end with. -/
theorem unit_ends : a.unit.toList ≠ [] ∧ (∀ c ∈ a.unit.toList, isNumeral c = false) ∧
    (∀ c ∈ a.unit.toList.getLast?, isBlank c = false) := by
  have hall : ∀ u ∈ units, u.1.toList ≠ [] ∧ u.1.toList.all (fun c => !isNumeral c) = true ∧
      u.1.toList.getLast?.all (fun c => !isBlank c) = true := by decide
  simpa [Option.all_eq_true] using hall (a.unit, a.scale) a.known

/-- No unit is shorter than a nanosecond or as long as 2^53 of them. -/
theorem scale_bounds : 1 ≤ a.scale ∧ a.scale < 2 ^ 53 := by
  have hall : ∀ u ∈ units, 1 ≤ u.2 ∧ u.2 < 2 ^ 53 := by decide
  exact hall (a.unit, a.scale) a.known

theorem ofDigits_le_nanos : ofDigits a.digits ≤ a.nanos :=
  Nat.le_mul_of_pos_right _ a.scale_bounds.1

theorem addComponents_cons {m : Nat} (h : m + a.nanos < 2 ^ 53) (ks : List Component) :
    addComponents (m * Double.one) (a.component :: ks) =
      addComponents ((m + a.nanos) * Double.one) ks := by
  have hdigits : ofDigits a.digits < 2 ^ 53 := by
    have hle := a.ofDigits_le_nanos
    omega
  have hnumber : readNumber? a.digits = some (ofDigits a.digits * Double.one) := by
    rw [readNumber?_digits a.isDigit_of_mem a.nonempty, Double.ofDecimal_whole hdigits]
  have hunit : ¬ a.unit.toList.isEmpty = true := mt List.isEmpty_iff.mp a.unit_ends.1
  have hproduct : Double.mul (ofDigits a.digits * Double.one) (Double.ofNat a.scale) =
      a.nanos * Double.one := by
    rw [Double.ofNat_whole a.scale_bounds.2, Double.mul_whole (show a.nanos < 2 ^ 53 by omega),
      nanos]
  simp only [component, addComponents, hnumber, if_neg hunit, unitNanos?_of_mem a.known, hproduct,
    Double.add_whole h]

/-! ## Many amounts -/

theorem mem_of_head?_append {α : Type} {l l' : List α} (hne : l ≠ []) {c : α}
    (h : c ∈ (l ++ l').head?) : c ∈ l := by
  obtain ⟨x, xs, rfl⟩ := List.exists_cons_of_ne_nil hne
  cases h
  exact List.mem_cons_self

/-- What is written begins with a digit. -/
theorem isDigit_of_head?_written {as : List Amount} :
    ∀ c ∈ (written as).head?, isDigit c = true := by
  intro c hc
  cases as with
  | nil => cases hc
  | cons a as =>
    rw [written_cons, List.append_assoc] at hc
    exact a.isDigit_of_mem c (mem_of_head?_append a.nonempty hc)

/-- What is written ends with the end of a unit. -/
theorem isBlank_of_getLast?_written {as : List Amount} (hne : as ≠ []) (sign : List Char) :
    ∀ c ∈ (sign ++ written as).getLast?, isBlank c = false := by
  induction as generalizing sign with
  | nil => exact absurd rfl hne
  | cons a as ih =>
    rw [written_cons, ← List.append_assoc]
    cases as with
    | nil =>
      obtain ⟨hunit, -, hlast⟩ := a.unit_ends
      rw [written, List.flatMap_nil, List.append_nil, ← List.append_assoc, List.getLast?_append,
        Option.or_of_isSome (by simpa using hunit)]
      exact hlast
    | cons b bs => exact ih nofun _

theorem cut_written (as : List Amount) : Cut (written as) (as.map component) := by
  induction as with
  | nil => exact .nil
  | cons a as ih =>
    obtain ⟨hunit, hunitChars, -⟩ := a.unit_ends
    refine .cons a.digits a.unit.toList (fun c hc => isNumeral_of_isDigit (a.isDigit_of_mem c hc))
      hunitChars (fun c hc => hunitChars c (mem_of_head?_append hunit hc))
      (fun c hc => isNumeral_of_isDigit (isDigit_of_head?_written c hc))
      (List.append_ne_nil_of_left_ne_nil a.nonempty _) ih

/-- Partial sums stay whole numbers below 2^53. -/
theorem addComponents_written (as : List Amount) {m : Nat} (h : m + total as < 2 ^ 53) :
    addComponents (m * Double.one) (as.map component) = .ok ((m + total as) * Double.one) := by
  induction as generalizing m with
  | nil => rfl
  | cons a as ih =>
    rw [total, ← Nat.add_assoc] at h ⊢
    rw [List.map_cons, addComponents_cons a (by omega), ih h]

theorem ofTotal_whole {m : Nat} (hpos : 1 ≤ m) (hlt : m < 2 ^ 53) :
    ofTotal (m * Double.one) = .ok ⟨m⟩ := by
  have hbelow : ¬ Nat.pow 2 64 * Double.one ≤ m * Double.one := by
    refine Nat.not_le_of_lt (Nat.mul_lt_mul_of_pos_right ?_ Double.one_pos)
    exact Nat.lt_trans hlt (by decide)
  obtain ⟨n, rfl⟩ := Nat.exists_eq_add_of_le' hpos
  simp only [ofTotal, if_neg hbelow, Double.toNatHalfUp_whole]

theorem readBody_written {as : List Amount} (hpos : 1 ≤ total as) (hlt : total as < 2 ^ 53) :
    readBody (written as) = .ok ⟨total as⟩ := by
  have hcomponents := (cut_written as).components_eq
  -- a zero that stands alone has no unit
  have hzero : written as ≠ ['0'] := by
    intro hwritten
    have hsingle : as.map component = [⟨['0'], []⟩] := by
      rw [← hcomponents, hwritten]
      rfl
    cases as with
    | nil => cases hsingle
    | cons a as => exact a.unit_ends.1 (congrArg Component.unit (List.cons.inj hsingle).1)
  have hsum : addComponents 0 (as.map component) = .ok (total as * Double.one) := by
    have hstart := addComponents_written as (show 0 + total as < 2 ^ 53 by omega)
    rwa [Nat.zero_mul, Nat.zero_add] at hstart
  rw [readBody_of_ne hzero, hcomponents, hsum]
  exact ofTotal_whole hpos hlt

theorem unsigned_written {as : List Amount} (hne : as ≠ []) {sign : String}
    (hsign : sign = "" ∨ sign = "+") : Unsigned (sign.toList ++ written as) (written as) := by
  rcases hsign with rfl | rfl
  · obtain ⟨a, as, rfl⟩ := List.exists_cons_of_ne_nil hne
    obtain ⟨c, cs, hdigits⟩ := List.exists_cons_of_ne_nil a.nonempty
    have hc : isDigit c = true := a.isDigit_of_mem c (by rw [hdigits]; exact List.mem_cons_self)
    rw [written_cons, hdigits]
    refine .bare _ ?_ ?_
    · rintro rfl
      cases hc
    · rintro rfl
      cases hc
  · exact .plus _

theorem bare_written {as : List Amount} (hne : as ≠ []) {sign : String}
    (hsign : sign = "" ∨ sign = "+") : Bare (sign.toList ++ written as) := by
  refine ⟨?_, isBlank_of_getLast?_written hne sign.toList⟩
  rcases hsign with rfl | rfl
  · intro c hc
    have hdigit := isDigit_of_head?_written c hc
    refine Bool.eq_false_iff.mpr fun hblank => ?_
    rw [Json.isDigit_of_isBlank hblank] at hdigit
    cases hdigit
  · rintro c ⟨⟩
    decide

/-- A duration in whole numbers is read as its exact sum. -/
theorem read_written (as : List Amount) (before sign after : String)
    (hbefore : isBlankText before = true) (hafter : isBlankText after = true)
    (hsign : sign = "" ∨ sign = "+") (hpos : 1 ≤ total as) (hlt : total as < 2 ^ 53) :
    read (before ++ sign ++ String.ofList (written as) ++ after) = .ok ⟨total as⟩ := by
  have hne : as ≠ [] := by
    rintro rfl
    exact absurd hpos (by decide)
  have htrim : trimChars (before ++ sign ++ String.ofList (written as) ++ after).toList =
      sign.toList ++ written as := by
    rw [String.toList_append, trimChars_append_of_all hafter, String.toList_append,
      String.toList_append, String.toList_ofList, List.append_assoc,
      trimChars_of_all_append hbefore, (bare_written hne hsign).trimChars_eq_self]
  have hunsigned := unsigned_written hne hsign
  rw [← htrim] at hunsigned
  rw [read_eq_readBody hunsigned, readBody_written hpos hlt]

/-- One nanosecond below 2^53 of them, with the smallest unit first and one of the units twice. -/
theorem read_largest :
    isBlankText "\t" = true ∧ isBlankText "\u2003" = true ∧
      read ("\t" ++ "+" ++ "0991ns740\u00b5s254ms59s0s59m2501h" ++ "\u2003") =
        .ok ⟨9007199254740991⟩ := by
  have hwritten : String.ofList (written
      [⟨"0991".toList, "ns", 1, by decide, by decide, by decide⟩,
        ⟨"740".toList, "\u00b5s", 1000, by decide, by decide, by decide⟩,
        ⟨"254".toList, "ms", 1000000, by decide, by decide, by decide⟩,
        ⟨"59".toList, "s", 1000000000, by decide, by decide, by decide⟩,
        ⟨"0".toList, "s", 1000000000, by decide, by decide, by decide⟩,
        ⟨"59".toList, "m", 60000000000, by decide, by decide, by decide⟩,
        ⟨"2501".toList, "h", 3600000000000, by decide, by decide, by decide⟩]) =
      "0991ns740\u00b5s254ms59s0s59m2501h" := by decide
  refine ⟨by decide, by decide, ?_⟩
  rw [← hwritten]
  exact read_written _ "\t" "+" "\u2003" (by decide) (by decide) (.inr rfl) (by decide) (by decide)

end Amount

end Ensemble.Duration

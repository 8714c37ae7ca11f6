import Ensemble.Proofs.Workflow.Bounds
import Mathlib.Data.List.Count
import Mathlib.Data.List.TakeWhile

/-!
The components of a duration.  Every text can be cut in exactly one way into longest runs of digits
and points, each with the longest run of other characters behind it.  A run of digits and points is
a number if it has a digit and at most one point.
-/

namespace Ensemble.Duration

open Ensemble.Text

/-! ## Cutting a text -/

/-- A text cut from left to right, without empty components.  The character that ends a run is not
of the kind of the run. -/
inductive Cut : List Char → List Component → Prop
  | nil : Cut [] []
  | cons (number unit : List Char) {rest : List Char} {ks : List Component}
      (hnumber : ∀ c ∈ number, isNumeral c = true)
      (hunit : ∀ c ∈ unit, isNumeral c = false)
      (hnumberEnd : ∀ c ∈ (unit ++ rest).head?, isNumeral c = false)
      (hunitEnd : ∀ c ∈ rest.head?, isNumeral c = true)
      (hne : number ++ unit ≠ []) (h : Cut rest ks) :
      Cut (number ++ unit ++ rest) (⟨number, unit⟩ :: ks)

theorem Cut.addChar {cs : List Char} {ks : List Component} (h : Cut cs ks) (c : Char) :
    Cut (c :: cs) (addChar c ks) := by
  cases hc : isNumeral c with
  | true =>
    -- the character goes in front of the first number
    cases h with
    | nil =>
      rw [Duration.addChar, if_pos hc]
      exact .cons [c] [] (by simpa using hc) nofun nofun nofun nofun .nil
    | cons number unit hnumber hunit hnumberEnd hunitEnd hne h =>
      rw [Duration.addChar, if_pos hc]
      exact .cons (c :: number) unit (List.forall_mem_cons.mpr ⟨hc, hnumber⟩) hunit hnumberEnd
        hunitEnd nofun h
  | false =>
    have hunitStarts {unit rest : List Char} :
        ∀ x ∈ (c :: unit ++ rest).head?, isNumeral x = false := by
      simpa using hc
    cases h with
    | nil =>
      rw [Duration.addChar, if_neg (by simp [hc])]
      exact .cons [] [c] nofun (by simpa using hc) hunitStarts nofun nofun .nil
    | cons number unit hnumber hunit hnumberEnd hunitEnd hne h =>
      rw [Duration.addChar, if_neg (by simp [hc])]
      cases number with
      | nil =>
        exact .cons [] (c :: unit) nofun (List.forall_mem_cons.mpr ⟨hc, hunit⟩) hunitStarts
          hunitEnd nofun h
      | cons d number =>
        refine .cons [] [c] nofun (by simpa using hc) hunitStarts ?_ nofun
          (.cons (d :: number) unit hnumber hunit hnumberEnd hunitEnd hne h)
        simpa using hnumber d List.mem_cons_self

theorem cut_components (cs : List Char) : Cut cs (components cs) := by
  induction cs with
  | nil => exact .nil
  | cons c cs ih => exact ih.addChar c

/-- A text that begins with a digit or point begins with a number. -/
theorem Cut.number_ne_nil {cs : List Char} {ks : List Component} (h : Cut cs ks)
    (hcs : ∀ c ∈ cs.head?, isNumeral c = true) : ∀ k ∈ ks.head?, k.number ≠ [] := by
  cases h with
  | nil => nofun
  | cons number unit _ hunit _ _ hne _ =>
    rintro _ ⟨⟩ hnil
    obtain rfl : number = [] := hnil
    cases unit with
    | nil => exact hne rfl
    | cons c unit =>
      have hc := hunit c List.mem_cons_self
      rw [hcs c rfl] at hc
      cases hc

theorem foldr_number {number : List Char} (h : ∀ c ∈ number, isNumeral c = true)
    (unit : List Char) (ks : List Component) :
    number.foldr Duration.addChar (⟨[], unit⟩ :: ks) = ⟨number, unit⟩ :: ks := by
  induction number with
  | nil => rfl
  | cons c number ih =>
    obtain ⟨hc, hnumber⟩ := List.forall_mem_cons.mp h
    rw [List.foldr_cons, ih hnumber, Duration.addChar, if_pos hc]

theorem foldr_lastNumber {number : List Char} (h : ∀ c ∈ number, isNumeral c = true)
    (hne : number ≠ []) : number.foldr Duration.addChar [] = [⟨number, []⟩] := by
  induction number with
  | nil => exact absurd rfl hne
  | cons c number ih =>
    obtain ⟨hc, hnumber⟩ := List.forall_mem_cons.mp h
    rw [List.foldr_cons]
    cases number with
    | nil => rw [List.foldr_nil, Duration.addChar, if_pos hc]
    | cons d number => rw [ih hnumber nofun, Duration.addChar, if_pos hc]

theorem foldr_unit {unit : List Char} (h : ∀ c ∈ unit, isNumeral c = false) (hne : unit ≠ [])
    {ks : List Component} (hks : ∀ k ∈ ks.head?, k.number ≠ []) :
    unit.foldr Duration.addChar ks = ⟨[], unit⟩ :: ks := by
  induction unit with
  | nil => exact absurd rfl hne
  | cons c unit ih =>
    obtain ⟨hc, hunit⟩ := List.forall_mem_cons.mp h
    rw [List.foldr_cons]
    cases unit with
    | nil =>
      cases ks with
      | nil => rw [List.foldr_nil, Duration.addChar, if_neg (by simp [hc])]
      | cons k ks =>
        have hk : k.number ≠ [] := hks k rfl
        rw [List.foldr_nil, Duration.addChar, if_neg (by simp [hc]), if_neg (by simpa using hk)]
    | cons d unit =>
      rw [ih hunit nofun, Duration.addChar, if_neg (by simp [hc])]
      exact if_pos rfl

/-- There is only one way to cut a text. -/
theorem Cut.components_eq {cs : List Char} {ks : List Component} (h : Cut cs ks) :
    components cs = ks := by
  induction h with
  | nil => rfl
  | @cons number unit rest ks hnumber hunit hnumberEnd hunitEnd hne h ih =>
    have hfoldr : components (number ++ unit ++ rest) =
        number.foldr Duration.addChar (unit.foldr Duration.addChar ks) := by
      rw [← ih, components, List.foldr_append, List.foldr_append, components]
    rw [hfoldr]
    by_cases hempty : unit = []
    -- without a unit there is nothing left that could end the number
    · have hrest : rest = [] := by
        cases rest with
        | nil => rfl
        | cons c rest =>
          have hc := hunitEnd c rfl
          rw [hnumberEnd c (by rw [hempty]; rfl)] at hc
          cases hc
      have hks : ks = [] := by rw [← ih, hrest, components, List.foldr_nil]
      rw [hempty, List.append_nil] at hne
      rw [hempty, hks, List.foldr_nil, foldr_lastNumber hnumber hne]
    · rw [foldr_unit hunit hempty (h.number_ne_nil hunitEnd), foldr_number hnumber]

/-! ## Numbers and units -/

/-- The units of time with their lengths in nanoseconds; a micro sign has two code points. -/
def units : List (String × Nat) :=
  [("ns", 1), ("us", 1000), ("\u00b5s", 1000), ("\u03bcs", 1000), ("ms", 1000000),
    ("s", 1000000000), ("m", 60000000000), ("h", 3600000000000)]

theorem unitNanos?_of_mem {name : String} {scale : Nat} (h : (name, scale) ∈ units) :
    unitNanos? name.toList = some scale := by
  have hall : ∀ u ∈ units, unitNanos? u.1.toList = some u.2 := by decide
  exact hall (name, scale) h

theorem mem_units_of_unitNanos? {unit : List Char} {scale : Nat}
    (h : unitNanos? unit = some scale) : (String.ofList unit, scale) ∈ units := by
  unfold unitNanos? at h
  split at h
  case h_9 => cases h
  all_goals
    cases h
    decide

/-- A number with a digit and with at most one point. -/
def Numbered (number : List Char) : Prop :=
  (∃ c ∈ number, isDigit c = true) ∧ number.count '.' ≤ 1

section Number

variable {number whole fraction : List Char}

theorem count_point_eq_zero_iff (h : ∀ c ∈ number, isNumeral c = true) :
    number.count '.' = 0 ↔ ∀ c ∈ number, isDigit c = true := by
  rw [List.count_eq_zero]
  constructor
  · intro hpoint c hc
    have hnumeral := h c hc
    rw [isNumeral, Bool.or_eq_true, decide_eq_true_eq] at hnumeral
    rcases hnumeral with hdigit | rfl
    · exact hdigit
    · exact absurd hc hpoint
  · intro hdigits hpoint
    cases hdigits '.' hpoint

theorem isNumeral_of_isDigit {c : Char} (h : isDigit c = true) : isNumeral c = true := by
  rw [isNumeral, h, Bool.true_or]

/-- Up to the first point there are digits. -/
theorem digits_or_point (h : ∀ c ∈ number, isNumeral c = true) :
    (∀ c ∈ number, isDigit c = true) ∨
      ∃ whole fraction, number = whole ++ '.' :: fraction ∧ ∀ c ∈ whole, isDigit c = true := by
  by_cases hdigits : ∀ c ∈ number, isDigit c = true
  · exact .inl hdigits
  obtain ⟨whole, c, fraction, rfl, hwhole, hc⟩ := exists_first_not hdigits
  have hnumeral : isNumeral c = true := h c (by simp)
  rw [isNumeral, Bool.or_eq_true, decide_eq_true_eq] at hnumeral
  obtain rfl := hnumeral.resolve_left hc
  exact .inr ⟨whole, fraction, rfl, hwhole⟩

theorem readNumber?_digits (h : ∀ c ∈ whole, isDigit c = true) (hne : whole ≠ []) :
    readNumber? whole = some (Double.ofDecimal (ofDigits whole) 0) := by
  have htake : whole.takeWhile isDigit = whole := List.takeWhile_eq_self_iff.mpr h
  have hdrop : whole.dropWhile isDigit = [] := List.dropWhile_eq_nil_iff.mpr h
  have hempty : ¬ whole.isEmpty = true := by simpa using hne
  unfold readNumber?
  dsimp only
  rw [htake, hdrop]
  exact if_neg hempty

theorem readNumber?_point (h : ∀ c ∈ whole, isDigit c = true) :
    readNumber? (whole ++ '.' :: fraction) =
      if fraction.all isDigit && !(whole.isEmpty && fraction.isEmpty) then
        some (Double.ofDecimal (ofDigits (whole ++ fraction)) fraction.length)
      else none := by
  have hpoint : isDigit '.' = false := by decide
  have htake : (whole ++ '.' :: fraction).takeWhile isDigit = whole := by
    rw [List.takeWhile_append_of_pos h, List.takeWhile_cons, hpoint,
      if_neg Bool.false_ne_true, List.append_nil]
  have hdrop : (whole ++ '.' :: fraction).dropWhile isDigit = '.' :: fraction := by
    rw [List.dropWhile_append_of_pos h, List.dropWhile_cons, hpoint, if_neg Bool.false_ne_true]
  unfold readNumber?
  dsimp only
  rw [htake, hdrop]

theorem numbered_point (h : ∀ c ∈ whole, isDigit c = true)
    (hfraction : ∀ c ∈ fraction, isNumeral c = true) :
    Numbered (whole ++ '.' :: fraction) ↔
      (∀ c ∈ fraction, isDigit c = true) ∧ whole ++ fraction ≠ [] := by
  have hzero : whole.count '.' = 0 :=
    (count_point_eq_zero_iff fun c hc => isNumeral_of_isDigit (h c hc)).mpr h
  rw [Numbered, List.count_append, List.count_cons_self, hzero]
  constructor
  · rintro ⟨⟨c, hc, hdigit⟩, hcount⟩
    refine ⟨(count_point_eq_zero_iff hfraction).mp (by omega), fun hnil => ?_⟩
    obtain ⟨rfl, rfl⟩ := List.append_eq_nil_iff.mp hnil
    rw [List.mem_singleton.mp hc] at hdigit
    cases hdigit
  · rintro ⟨hdigits, hne⟩
    have hcount := (count_point_eq_zero_iff hfraction).mpr hdigits
    obtain ⟨c, hc⟩ := List.exists_mem_of_ne_nil _ hne
    refine ⟨⟨c, ?_, ?_⟩, by omega⟩
    · rcases List.mem_append.mp hc with hc | hc
      · exact List.mem_append_left _ hc
      · exact List.mem_append_right _ (List.mem_cons_of_mem _ hc)
    · exact (List.mem_append.mp hc).elim (h c) (hdigits c)

/-- Such numbers, and no others, are read. -/
theorem readNumber?_isSome_iff (h : ∀ c ∈ number, isNumeral c = true) :
    (readNumber? number).isSome ↔ Numbered number := by
  rcases digits_or_point h with hdigits | ⟨whole, fraction, rfl, hwhole⟩
  · have hcount := (count_point_eq_zero_iff h).mpr hdigits
    by_cases hnil : number = []
    · rw [hnil]
      simp [Numbered, readNumber?]
    · obtain ⟨c, hc⟩ := List.exists_mem_of_ne_nil _ hnil
      have hnumbered : Numbered number := ⟨⟨c, hc, hdigits c hc⟩, by omega⟩
      simp [readNumber?_digits hdigits hnil, hnumbered]
  · have hfraction : ∀ c ∈ fraction, isNumeral c = true := fun c hc => h c (by simp [hc])
    rw [readNumber?_point hwhole, numbered_point hwhole hfraction]
    simp [Option.isSome_ite, imp_iff_not_or]

end Number

end Ensemble.Duration

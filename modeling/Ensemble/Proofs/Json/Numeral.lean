import Ensemble.Json.Numeral
import Ensemble.Number.Shortest
import Ensemble.Proofs.Text.Digits

/-!
Whole numbers in JSON text.  The digits of a whole number are scanned up to their end, wherever
nothing follows that would belong to a numeral, and they denote the number again as long as it is
one of 64 bits.
-/

namespace Ensemble.Json.Numeral

open Ensemble.Text

/-- What may follow a numeral without becoming a part of it. -/
def Stops (rest : List Char) : Prop :=
  ∀ c ∈ rest.head?, isDigit c = false ∧ c ≠ '.' ∧ c ≠ 'e' ∧ c ≠ 'E'

theorem stops_nil : Stops [] := nofun

theorem stops_cons {c : Char} {rest : List Char} :
    Stops (c :: rest) ↔ isDigit c = false ∧ c ≠ '.' ∧ c ≠ 'e' ∧ c ≠ 'E' := by
  simp [Stops]

theorem ne_of_isDigit {c d : Char} (hc : isDigit c = true) (hd : isDigit d = false) : c ≠ d := by
  rintro rfl
  rw [hc] at hd
  cases hd

theorem spanDigits_append {ds rest : List Char} (hds : ∀ c ∈ ds, isDigit c = true)
    (hrest : Stops rest) : spanDigits (ds ++ rest) = (ds, rest) := by
  have hnone : rest.takeWhile isDigit = [] ∧ rest.dropWhile isDigit = rest := by
    cases rest with
    | nil => simp
    | cons c rest =>
      have hc := (stops_cons.mp hrest).1
      simp [hc]
  rw [spanDigits, List.takeWhile_append_of_pos hds, List.dropWhile_append_of_pos hds, hnone.1,
    hnone.2, List.append_nil]

theorem scanWhole?_append (n : Nat) {rest : List Char} (hrest : Stops rest) :
    scanWhole? (toDigits n ++ rest) = some (toDigits n, rest) := by
  obtain ⟨c, cs, hcs, hzero⟩ := exists_toDigits_eq n
  rw [scanWhole?, spanDigits_append (isDigit_of_mem_toDigits n) hrest, hcs]
  split
  · next heq => cases heq
  · next heq =>
    cases heq
    cases (hzero rfl).2
  · rfl

theorem scanFraction?_of_stops {rest : List Char} (hrest : Stops rest) :
    scanFraction? rest = some (none, rest) := by
  rw [scanFraction?]
  rintro cs rfl
  exact absurd rfl (stops_cons.mp hrest).2.1

theorem scanExponent?_of_stops {rest : List Char} (hrest : Stops rest) :
    scanExponent? rest = some (none, rest) := by
  cases rest with
  | nil => rfl
  | cons c rest =>
    obtain ⟨-, -, hlower, hupper⟩ := stops_cons.mp hrest
    rw [scanExponent?, if_neg (by simp [hlower, hupper])]

/-- The numeral that the digits of a whole number are. -/
def ofInt (n : Int) : Numeral :=
  ⟨n < 0, toDigits n.natAbs, none, none⟩

theorem scan?_intDigits (n : Int) {rest : List Char} (hrest : Stops rest) :
    scan? (Double.intDigits n ++ rest) = some (ofInt n, rest) := by
  rw [ofInt, Double.intDigits]
  by_cases hn : n < 0
  · rw [if_pos hn, decide_eq_true hn, List.cons_append, scan?]
    simp only [scanWhole?_append _ hrest, scanFraction?_of_stops hrest,
      scanExponent?_of_stops hrest]
  · rw [if_neg hn, decide_eq_false hn, scan?]
    · simp only [scanWhole?_append _ hrest, scanFraction?_of_stops hrest,
        scanExponent?_of_stops hrest]
    -- without a minus sign the numeral begins with a digit
    · intro body heq
      obtain ⟨c, cs, hcs, -⟩ := exists_toDigits_eq n.natAbs
      have hc : isDigit c = true := isDigit_of_mem_toDigits n.natAbs c (by simp [hcs])
      rw [hcs] at heq
      exact ne_of_isDigit hc (by decide) (List.cons.inj heq).1

theorem value?_ofInt {n : Int} (h : Number.inRange n = true) :
    (ofInt n).value? = some (.int n) := by
  have hsigned : (if (ofInt n).negative then -(ofDigits (ofInt n).whole : Int)
      else (ofDigits (ofInt n).whole : Int)) = n := by
    simp only [ofInt, ofDigits_toDigits, decide_eq_true_eq]
    split <;> omega
  have hzero : (!((ofInt n).negative && (ofDigits (ofInt n).whole : Int) = 0)) = true := by
    simp only [ofInt, ofDigits_toDigits]
    by_cases hn : n < 0
    · have hne : n ≠ 0 := by omega
      simp [hne]
    · simp [hn]
  rw [value?]
  simp only [hsigned, hzero, h]
  rfl

end Ensemble.Json.Numeral

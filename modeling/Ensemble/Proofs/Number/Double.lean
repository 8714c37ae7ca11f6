import Ensemble.Number.Double
import Mathlib.Algebra.Group.Nat.Defs

/-!
Rounding to doubles.  What an operation computes is always a double, and a double is its own nearest
one, so an operation whose exact result is a double loses nothing.  In particular the whole numbers
below 2^53 are doubles.
-/

namespace Ensemble.Double

/-- Magnitudes with at most 53 significant bits. -/
def Representable (n : Nat) : Prop :=
  ∃ m s, m < 2 ^ 53 ∧ n = m * 2 ^ s

theorem representable_zero : Representable 0 :=
  ⟨0, 0, by decide, rfl⟩

/-- All that matters of the smallest double is that it is a power of two below 1. -/
theorem exists_one_eq : ∃ places, one = 2 ^ places := by
  refine ⟨1074, ?_⟩
  unfold one
  -- a numeral would be multiplied out
  generalize 1074 = places
  rfl

theorem one_pos : 0 < one := by
  obtain ⟨places, hone⟩ := exists_one_eq
  rw [hone]
  exact Nat.two_pow_pos places

theorem representable_whole {m : Nat} (h : m < 2 ^ 53) : Representable (m * one) := by
  obtain ⟨places, hone⟩ := exists_one_eq
  exact ⟨m, places, h, by rw [hone]⟩

/-! ## The result of an operation -/

theorem roundQuotient_le (num den : Nat) : roundQuotient num den ≤ num / den + 1 := by
  unfold roundQuotient
  dsimp only
  split <;> omega

/-- The bits that are kept are at most 53. -/
theorem div_surplus_lt (q : Nat) : q / 2 ^ surplusBits q < 2 ^ 53 := by
  rw [Nat.div_lt_iff_lt_mul (Nat.two_pow_pos _), ← Nat.pow_add]
  refine Nat.lt_of_lt_of_le Nat.lt_log2_self (Nat.pow_le_pow_right (by decide) ?_)
  unfold surplusBits
  omega

theorem representable_round (num den : Nat) : Representable (round num den) := by
  have hle : roundQuotient num (den * 2 ^ surplusBits (num / den)) ≤ 2 ^ 53 := by
    refine Nat.le_trans (roundQuotient_le _ _) ?_
    rw [← Nat.div_div_eq_div_mul]
    exact div_surplus_lt (num / den)
  show Representable (roundQuotient num (den * 2 ^ surplusBits (num / den)) *
    2 ^ surplusBits (num / den))
  rcases Nat.lt_or_eq_of_le hle with hlt | heq
  · exact ⟨_, _, hlt, rfl⟩
  -- rounding up has carried into one more bit
  · refine ⟨1, 53 + surplusBits (num / den), by decide, ?_⟩
    rw [heq, Nat.one_mul, Nat.pow_add]

/-! ## Doubles round to themselves -/

theorem roundQuotient_of_dvd {num den : Nat} (hden : 0 < den) (h : den ∣ num) :
    roundQuotient num den = num / den := by
  unfold roundQuotient
  rw [Nat.mod_eq_zero_of_dvd h]
  dsimp only
  rw [if_neg]
  simp only [Bool.or_eq_true, Bool.and_eq_true, decide_eq_true_eq]
  omega

theorem Representable.two_pow_surplus_dvd {n : Nat} (h : Representable n) :
    2 ^ surplusBits n ∣ n := by
  obtain ⟨m, s, hm, rfl⟩ := h
  by_cases hzero : m * 2 ^ s = 0
  · rw [hzero]
    exact Nat.dvd_zero _
  have hlt : m * 2 ^ s < 2 ^ (53 + s) := by
    rw [Nat.pow_add]
    exact Nat.mul_lt_mul_of_pos_right hm (Nat.two_pow_pos s)
  have hlog : (m * 2 ^ s).log2 < 53 + s := (Nat.log2_lt hzero).mpr hlt
  have hle : surplusBits (m * 2 ^ s) ≤ s := by
    unfold surplusBits
    omega
  exact Nat.dvd_trans (Nat.pow_dvd_pow 2 hle) (Nat.dvd_mul_left _ _)

theorem Representable.round_mul {n den : Nat} (h : Representable n) (hden : 0 < den) :
    round (n * den) den = n := by
  have hunit : 0 < den * 2 ^ surplusBits n := Nat.mul_pos hden (Nat.two_pow_pos _)
  have hdvd : den * 2 ^ surplusBits n ∣ n * den := by
    rw [Nat.mul_comm n den]
    exact Nat.mul_dvd_mul_left den h.two_pow_surplus_dvd
  have hquotient : n * den / den = n := Nat.mul_div_cancel n hden
  unfold round
  dsimp only
  rw [hquotient]
  show roundQuotient (n * den) (den * 2 ^ surplusBits n) * 2 ^ surplusBits n = n
  rw [roundQuotient_of_dvd hunit hdvd, ← Nat.div_div_eq_div_mul, hquotient]
  exact Nat.div_mul_cancel h.two_pow_surplus_dvd

/-! ## Whole numbers -/

section Whole

variable {m n : Nat}

theorem ofNat_whole (h : m < 2 ^ 53) : ofNat m = m * one := by
  have hround := (representable_whole h).round_mul Nat.one_pos
  rwa [Nat.mul_one] at hround

theorem ofDecimal_whole (h : m < 2 ^ 53) : ofDecimal m 0 = m * one :=
  ofNat_whole h

theorem add_whole (h : m + n < 2 ^ 53) : add (m * one) (n * one) = (m + n) * one := by
  rw [add, ← Nat.add_mul]
  exact ofNat_whole h

theorem mul_whole (h : m * n < 2 ^ 53) : mul (m * one) (n * one) = m * n * one := by
  rw [mul, ← Nat.mul_assoc, Nat.mul_right_comm m one n]
  exact (representable_whole h).round_mul one_pos

theorem toNatHalfUp_whole (m : Nat) : toNatHalfUp (m * one) = m := by
  have hpos := one_pos
  have hdouble : 2 * (m * one) + one = one + m * (2 * one) := by
    rw [Nat.mul_left_comm, Nat.add_comm]
  rw [toNatHalfUp, hdouble, Nat.add_mul_div_right _ _ (by omega), Nat.div_eq_of_lt (by omega),
    Nat.zero_add]

end Whole

/-- A double below 2^64 is not rounded up to it: so far up all doubles are whole numbers. -/
theorem Representable.toNatHalfUp_lt {n : Nat} (h : Representable n) (hlt : n < 2 ^ 64 * one) :
    toNatHalfUp n < 2 ^ 64 := by
  obtain ⟨m, s, hm, rfl⟩ := h
  obtain ⟨places, hone⟩ := exists_one_eq
  by_cases hs : places ≤ s
  · obtain ⟨k, rfl⟩ := Nat.exists_eq_add_of_le hs
    have hwhole : m * 2 ^ (places + k) = m * 2 ^ k * one := by
      rw [hone, Nat.add_comm, Nat.pow_add, Nat.mul_assoc]
    rw [hwhole] at hlt ⊢
    rw [toNatHalfUp_whole]
    exact Nat.lt_of_mul_lt_mul_right hlt
  -- a double with places behind the point is below 2^53
  · have hscale : 2 ^ s ≤ one := by
      rw [hone]
      exact Nat.pow_le_pow_right (by decide) (by omega)
    have hsmall : m * 2 ^ s ≤ (2 ^ 53 - 1) * one := Nat.mul_le_mul (by omega) hscale
    have hpos := one_pos
    rw [toNatHalfUp, Nat.div_lt_iff_lt_mul (by omega)]
    omega

end Ensemble.Double

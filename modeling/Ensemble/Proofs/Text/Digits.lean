import Ensemble.Text.Digits

/-!
Decimal digits write what they are read as: the digits of a number denote it, and none of them is a
leading zero.
-/

namespace Ensemble.Text

theorem digitOf_cases (n : Nat) :
    digitOf n = '0' ∧ n % 10 = 0 ∨ digitOf n ≠ '0' ∧ n % 10 ≠ 0 := by
  have hten : ∀ d < 10, Char.ofNat ('0'.toNat + d) = '0' ∧ d = 0 ∨
      Char.ofNat ('0'.toNat + d) ≠ '0' ∧ d ≠ 0 := by decide
  exact hten (n % 10) (Nat.mod_lt n (by decide))

theorem isDigit_digitOf (n : Nat) : isDigit (digitOf n) = true := by
  have hten : ∀ d < 10, isDigit (Char.ofNat ('0'.toNat + d)) = true := by decide
  exact hten (n % 10) (Nat.mod_lt n (by decide))

theorem digitValue_digitOf (n : Nat) : digitValue (digitOf n) = n % 10 := by
  have hten : ∀ d < 10, digitValue (Char.ofNat ('0'.toNat + d)) = d := by decide
  exact hten (n % 10) (Nat.mod_lt n (by decide))

theorem isDigit_of_mem_toDigits (n : Nat) : ∀ c ∈ toDigits n, isDigit c = true := by
  induction n using toDigits.induct with
  | case1 n hn =>
    rw [toDigits, if_pos hn]
    simpa using isDigit_digitOf n
  | case2 n hn ih =>
    rw [toDigits, if_neg hn]
    intro c hc
    rcases List.mem_append.mp hc with hc | hc
    · exact ih c hc
    · rw [List.mem_singleton.mp hc]
      exact isDigit_digitOf n

theorem ofDigits_concat (cs : List Char) (c : Char) :
    ofDigits (cs ++ [c]) = 10 * ofDigits cs + digitValue c := by
  rw [ofDigits, List.foldl_append]
  rfl

@[simp] theorem ofDigits_toDigits (n : Nat) : ofDigits (toDigits n) = n := by
  induction n using toDigits.induct with
  | case1 n hn =>
    rw [toDigits, if_pos hn]
    show 10 * 0 + digitValue (digitOf n) = n
    rw [digitValue_digitOf]
    omega
  | case2 n hn ih =>
    rw [toDigits, if_neg hn, ofDigits_concat, ih, digitValue_digitOf]
    omega

/-- Digits begin with a zero only where they are the digit zero alone. -/
theorem exists_toDigits_eq (n : Nat) :
    ∃ c cs, toDigits n = c :: cs ∧ (c = '0' → n = 0 ∧ cs = []) := by
  induction n using toDigits.induct with
  | case1 n hn =>
    rw [toDigits, if_pos hn]
    refine ⟨digitOf n, [], rfl, fun hzero => ⟨?_, rfl⟩⟩
    rcases digitOf_cases n with ⟨-, hmod⟩ | ⟨hne, -⟩
    · omega
    · exact absurd hzero hne
  | case2 n hn ih =>
    obtain ⟨c, cs, hcs, hzero⟩ := ih
    rw [toDigits, if_neg hn, hcs]
    refine ⟨c, cs ++ [digitOf n], rfl, fun hc => ?_⟩
    -- a zero in front would make what stands before the last digit zero
    have hdiv := (hzero hc).1
    omega

theorem lt_of_unsignedBelow? {bound n : Nat} {s : String} (h : unsignedBelow? bound s = some n) :
    n < bound := by
  unfold unsignedBelow? at h
  dsimp only at h
  split at h
  all_goals
    split at h
    · next => cases h
    · next =>
      split at h
      · next hlt =>
        rw [← Option.some.inj h]
        exact hlt
      · next => cases h

end Ensemble.Text

import Ensemble.Clock

/-!
What interrupts, and when.  A run that has a deadline or is going to be cancelled is interrupted at
its first signal at the latest.
-/

namespace Ensemble

theorem Interrupt.isTerminal_status (i : Interrupt) : i.status.isTerminal := by
  cases i <;> rfl

namespace Signals

variable {signals : Signals}

theorem first?_eq_none_iff : signals.first? = none ↔ signals = {} := by
  obtain ⟨cancelAt, deadline⟩ := signals
  cases cancelAt <;> cases deadline <;> simp [first?, deadlineTick?]

theorem deadlinePassed_of_deadlineTick? {t tick : Nat} (h : signals.deadlineTick? = some t)
    (hle : t ≤ tick) : signals.deadlinePassed tick = true := by
  obtain ⟨d, hd, rfl⟩ := Option.map_eq_some_iff.mp h
  unfold nanosPerTick at hle
  rw [deadlinePassed, hd, Option.any_some, decide_eq_true_eq]
  unfold nanosPerTick
  omega

theorem isCancelled_of_cancelAt {c tick : Nat} (h : signals.cancelAt = some c) (hle : c ≤ tick) :
    signals.isCancelled tick = true := by
  rw [isCancelled, h, Option.any_some, decide_eq_true_eq]
  exact hle

theorem interrupt?_isSome {tick : Nat} (h : signals.first? = some tick) :
    (signals.interrupt? tick).isSome := by
  -- the first signal is the earlier of the two, and either has come by its own tick
  have hsignal : signals.isCancelled tick = true ∨ signals.deadlinePassed tick = true := by
    unfold first? at h
    cases hc : signals.cancelAt with
    | none =>
      rw [hc] at h
      exact Or.inr (deadlinePassed_of_deadlineTick? h (Nat.le_refl tick))
    | some c =>
      cases hd : signals.deadlineTick? with
      | none =>
        rw [hc, hd] at h
        exact Or.inl (isCancelled_of_cancelAt hc (Nat.le_of_eq (Option.some.inj h)))
      | some d =>
        rw [hc, hd] at h
        have hmin : min c d = tick := Option.some.inj h
        by_cases hle : c ≤ tick
        · exact Or.inl (isCancelled_of_cancelAt hc hle)
        · exact Or.inr (deadlinePassed_of_deadlineTick? hd (by omega))
  unfold interrupt?
  rcases hsignal with hcancelled | hpassed
  · rw [if_pos hcancelled]
    rfl
  · rw [if_pos hpassed]
    split <;> rfl

theorem interruption?_cases {tick : Nat} {s : Status} (h : signals.interruption? tick = some s) :
    s = .timedOut ∨ s = .cancelled := by
  unfold interruption? at h
  split at h
  · exact Or.inl (Option.some.inj h).symm
  · split at h
    · exact Or.inr (Option.some.inj h).symm
    · cases h

theorem isCancelled_iff {tick : Nat} :
    signals.isCancelled tick = true ↔ ∃ c, signals.cancelAt = some c ∧ c ≤ tick := by
  rw [isCancelled, Option.any_eq_true]
  simp only [decide_eq_true_eq]

theorem deadlinePassed_iff {tick : Nat} :
    signals.deadlinePassed tick = true ↔ ∃ t, signals.deadlineTick? = some t ∧ t ≤ tick := by
  constructor
  · intro h
    rw [deadlinePassed, Option.any_eq_true] at h
    obtain ⟨d, hd, hle⟩ := h
    rw [decide_eq_true_eq] at hle
    refine ⟨(d + (nanosPerTick - 1)) / nanosPerTick, by rw [deadlineTick?, hd]; rfl, ?_⟩
    unfold nanosPerTick at hle ⊢
    omega
  · rintro ⟨t, ht, hle⟩
    exact deadlinePassed_of_deadlineTick? ht hle

theorem interrupt?_eq_cancelled_iff {tick : Nat} :
    signals.interrupt? tick = some .cancelled ↔ signals.isCancelled tick = true := by
  unfold interrupt?
  by_cases h : signals.isCancelled tick
  · simp [h]
  · by_cases hd : signals.deadlinePassed tick <;> simp [h, hd]

theorem interrupt?_eq_deadline_iff {tick : Nat} :
    signals.interrupt? tick = some .deadline ↔
      signals.isCancelled tick = false ∧ signals.deadlinePassed tick = true := by
  unfold interrupt?
  by_cases h : signals.isCancelled tick
  · simp [h]
  · by_cases hd : signals.deadlinePassed tick <;> simp [h, hd]

/-- A deadline that comes together with the cancellation is never what is noticed. -/
theorem ne_deadline_of_tie {t : Nat} (hc : signals.cancelAt = some t)
    (hd : signals.deadlineTick? = some t) (tick : Nat) :
    signals.interrupt? tick ≠ some .deadline := by
  rw [ne_eq, interrupt?_eq_deadline_iff, ← Bool.not_eq_true, isCancelled_iff, deadlinePassed_iff,
    hc, hd]
  simp

theorem interrupt?_isSome_iff_or {tick : Nat} :
    (signals.interrupt? tick).isSome ↔
      signals.isCancelled tick = true ∨ signals.deadlinePassed tick = true := by
  unfold interrupt?
  by_cases hcancelled : signals.isCancelled tick
  · simp [hcancelled]
  · by_cases hpassed : signals.deadlinePassed tick <;> simp [hcancelled, hpassed]

theorem interrupt?_eq_none_iff {tick : Nat} :
    signals.interrupt? tick = none ↔
      signals.isCancelled tick = false ∧ signals.deadlinePassed tick = false := by
  rw [← Option.not_isSome_iff_eq_none, interrupt?_isSome_iff_or, not_or, Bool.not_eq_true,
    Bool.not_eq_true]

/-- Something interrupts from the first signal on. -/
theorem interrupt?_isSome_iff {tick : Nat} :
    (signals.interrupt? tick).isSome ↔ ∃ t, signals.first? = some t ∧ t ≤ tick := by
  rw [interrupt?_isSome_iff_or, isCancelled_iff, deadlinePassed_iff, first?]
  cases signals.cancelAt with
  | none => simp
  | some c =>
    cases signals.deadlineTick? with
    | none => simp
    | some d =>
      simp only [Option.some.injEq, exists_eq_left']
      omega

theorem interrupt?_isSome_mono {tick later : Nat} (h : (signals.interrupt? tick).isSome)
    (hle : tick ≤ later) : (signals.interrupt? later).isSome := by
  obtain ⟨t, ht, htick⟩ := interrupt?_isSome_iff.mp h
  exact interrupt?_isSome_iff.mpr ⟨t, ht, Nat.le_trans htick hle⟩

theorem lt_of_calm {tick t : Nat} (hcalm : signals.interrupt? tick = none)
    (hfirst : signals.first? = some t) : tick < t := by
  refine Nat.lt_of_not_le fun hle => ?_
  have hsome := interrupt?_isSome_iff.mpr ⟨t, hfirst, hle⟩
  rw [hcalm] at hsome
  cases hsome

theorem interrupt?_of_lt {now : Nat} (h : ∀ t, signals.first? = some t → now < t) :
    signals.interrupt? now = none := by
  rw [← Option.not_isSome_iff_eq_none, interrupt?_isSome_iff]
  rintro ⟨t, ht, hle⟩
  exact absurd (h t ht) (Nat.not_lt.mpr hle)

theorem isCancelled_mono {tick later : Nat} (h : signals.isCancelled tick = true)
    (hle : tick ≤ later) : signals.isCancelled later = true := by
  obtain ⟨c, hc, htick⟩ := isCancelled_iff.mp h
  exact isCancelled_of_cancelAt hc (Nat.le_trans htick hle)

theorem deadlinePassed_mono {tick later : Nat} (h : signals.deadlinePassed tick = true)
    (hle : tick ≤ later) : signals.deadlinePassed later = true := by
  obtain ⟨t, ht, htick⟩ := deadlinePassed_iff.mp h
  exact deadlinePassed_of_deadlineTick? ht (Nat.le_trans htick hle)

/-! ## Between two steps -/

/-- The two ways to look for a signal differ in what they see first, not in whether they see one. -/
theorem interruption?_eq_none_iff {tick : Nat} :
    signals.interruption? tick = none ↔ signals.interrupt? tick = none := by
  unfold interruption? interrupt?
  cases signals.isCancelled tick <;> cases signals.deadlinePassed tick <;> simp

theorem deadlinePassed_of_interruption? {tick : Nat}
    (h : signals.interruption? tick = some .timedOut) : signals.deadlinePassed tick = true := by
  unfold interruption? at h
  split at h
  · next hpassed => exact hpassed
  · split at h <;> cases h

theorem isCancelled_of_interruption? {tick : Nat}
    (h : signals.interruption? tick = some .cancelled) : signals.isCancelled tick = true := by
  unfold interruption? at h
  split at h
  · cases h
  · split at h
    · next hcancelled => exact hcancelled
    · cases h

end Signals

end Ensemble

import Ensemble.Proofs.Number.Double
import Ensemble.Proofs.Workflow.Components

/-!
The grammar of durations.  A duration is read from left to right, so the first of its components
that is no number with a unit behind it is reported.  Where there is no such component only the sum
can be refused, as nothing at all or as too much.
-/

namespace Ensemble.Duration

open Ensemble.Text

/-! ## Faulty components -/

/-- A number and the name of a unit. -/
structure Component.Sound (k : Component) : Prop where
  number : Numbered k.number
  unit : ∃ scale, (String.ofList k.unit, scale) ∈ units

/-- A component that is at fault, where `remaining` is the text from it on, and the fault to
report then. -/
inductive Component.Fails (k : Component) (remaining : List Char) : Fault → Prop
  | missingNumber (h : ¬ Numbered k.number) :
      Fails k remaining (.missingNumber (String.ofList remaining))
  | missingUnit (hnumber : Numbered k.number) (h : k.unit = []) :
      Fails k remaining (.missingUnit (String.ofList k.number))
  | unknownUnit (hnumber : Numbered k.number) (hunit : k.unit ≠ [])
      (h : ∀ scale, (String.ofList k.unit, scale) ∉ units) :
      Fails k remaining (.unknownUnit (String.ofList k.unit))

/-- The fault of the first component from the left that is at fault. -/
inductive FirstFault (body : List Char) (fault : Fault) : Prop
  | intro {before after : List Component} {k : Component} {remaining : List Char}
      (hcut : Cut body (before ++ k :: after)) (hremaining : Cut remaining (k :: after))
      (hbefore : ∀ x ∈ before, x.Sound) (h : k.Fails remaining fault)

variable {cs body remaining : List Char} {before after ks : List Component} {k : Component}
  {fault : Fault}

theorem exists_fails_of_not_sound (h : ¬ k.Sound) (remaining : List Char) :
    ∃ fault, k.Fails remaining fault := by
  by_cases hnumber : Numbered k.number
  · by_cases hunit : k.unit = []
    · exact ⟨_, .missingUnit hnumber hunit⟩
    · exact ⟨_, .unknownUnit hnumber hunit fun scale hscale => h ⟨hnumber, scale, hscale⟩⟩
  · exact ⟨_, .missingNumber hnumber⟩

theorem Cut.eq_flatMap (h : Cut cs ks) : cs = ks.flatMap fun k => k.number ++ k.unit := by
  induction h with
  | nil => rfl
  | cons number unit _ _ _ _ _ _ ih => rw [List.flatMap_cons, ← ih]

theorem Cut.numerals (h : Cut cs ks) : ∀ k ∈ ks, ∀ c ∈ k.number, isNumeral c = true := by
  induction h with
  | nil => nofun
  | cons number unit hnumber _ _ _ _ _ ih => exact List.forall_mem_cons.mpr ⟨hnumber, ih⟩

theorem Cut.exists_suffix (h : Cut cs (before ++ ks)) : ∃ remaining, Cut remaining ks := by
  induction before generalizing cs with
  | nil => exact ⟨cs, h⟩
  | cons x before ih =>
    cases h with
    | cons _ _ _ _ _ _ _ hrest => exact ih hrest

/-! ## Adding components -/

/-- A sound component adds a double to the sum, whatever follows it. -/
theorem addComponents_of_sound (h : k.Sound) (hnumerals : ∀ c ∈ k.number, isNumeral c = true)
    (total : Nat) : ∃ term, ∀ ks,
      addComponents total (k :: ks) = addComponents (Double.add total term) ks := by
  obtain ⟨scale, hscale⟩ := h.unit
  obtain ⟨value, hvalue⟩ :=
    Option.isSome_iff_exists.mp ((readNumber?_isSome_iff hnumerals).mpr h.number)
  have hunit : unitNanos? k.unit = some scale := by simpa using unitNanos?_of_mem hscale
  have hnonempty : ¬ k.unit.isEmpty = true := fun hempty => by
    rw [List.isEmpty_iff.mp hempty] at hunit
    cases hunit
  refine ⟨Double.mul value (Double.ofNat scale), fun ks => ?_⟩
  simp only [addComponents, hvalue, hunit, if_neg hnonempty]

/-- A double is carried from left to right. -/
theorem addComponents_append (hbefore : ∀ x ∈ before, x.Sound)
    (hnumerals : ∀ x ∈ before, ∀ c ∈ x.number, isNumeral c = true) {total : Nat}
    (htotal : Double.Representable total) :
    ∃ total', Double.Representable total' ∧
      ∀ ks, addComponents total (before ++ ks) = addComponents total' ks := by
  induction before generalizing total with
  | nil => exact ⟨total, htotal, fun _ => rfl⟩
  | cons x before ih =>
    obtain ⟨hx, hrest⟩ := List.forall_mem_cons.mp hbefore
    obtain ⟨hxNumerals, hrestNumerals⟩ := List.forall_mem_cons.mp hnumerals
    obtain ⟨term, hterm⟩ := addComponents_of_sound hx hxNumerals total
    obtain ⟨total', htotal', happend⟩ :=
      ih hrest hrestNumerals (Double.representable_round (total + term) 1)
    exact ⟨total', htotal', fun ks => (hterm (before ++ ks)).trans (happend ks)⟩

theorem addComponents_of_fails (hremaining : Cut remaining (k :: after))
    (h : k.Fails remaining fault) (total : Nat) :
    addComponents total (k :: after) = .error fault := by
  have hread := readNumber?_isSome_iff (hremaining.numerals k List.mem_cons_self)
  cases h with
  | missingNumber h =>
    have hnone : readNumber? k.number = none := by simpa using mt hread.mp h
    simp only [addComponents, hnone, spell, ← hremaining.eq_flatMap]
  | missingUnit hnumber h =>
    obtain ⟨value, hvalue⟩ := Option.isSome_iff_exists.mp (hread.mpr hnumber)
    simp only [addComponents, hvalue, h, List.isEmpty_nil, if_true]
  | unknownUnit hnumber hunit h =>
    obtain ⟨value, hvalue⟩ := Option.isSome_iff_exists.mp (hread.mpr hnumber)
    have hnonempty : ¬ k.unit.isEmpty = true := mt List.isEmpty_iff.mp hunit
    have hnone : unitNanos? k.unit = none := by
      refine Option.eq_none_iff_forall_ne_some.mpr fun scale hscale => ?_
      exact h scale (mem_units_of_unitNanos? hscale)
    simp only [addComponents, hvalue, if_neg hnonempty, hnone]

theorem addComponents_of_firstFault (h : FirstFault body fault) :
    addComponents 0 (components body) = .error fault := by
  obtain ⟨hcut, hremaining, hbefore, hfails⟩ := h
  obtain ⟨total, -, happend⟩ := addComponents_append hbefore
    (fun x hx => hcut.numerals x (List.mem_append_left _ hx)) Double.representable_zero
  rw [hcut.components_eq, happend, addComponents_of_fails hremaining hfails]

theorem sound_of_no_fault (h : ∀ fault, ¬ FirstFault body fault) :
    ∀ k ∈ components body, k.Sound := by
  refine Classical.byContradiction fun hnot => ?_
  obtain ⟨before, k, after, hlist, hbefore, hk⟩ := exists_first_not hnot
  have hcut : Cut body (before ++ k :: after) := hlist ▸ cut_components body
  obtain ⟨remaining, hremaining⟩ := hcut.exists_suffix
  obtain ⟨fault, hfails⟩ := exists_fails_of_not_sound hk remaining
  exact h fault ⟨hcut, hremaining, hbefore, hfails⟩

theorem addComponents_of_no_fault (h : ∀ fault, ¬ FirstFault body fault) :
    ∃ total, Double.Representable total ∧ addComponents 0 (components body) = .ok total := by
  obtain ⟨total, htotal, happend⟩ := addComponents_append (sound_of_no_fault h)
    (cut_components body).numerals Double.representable_zero
  refine ⟨total, htotal, ?_⟩
  have hend := happend []
  rwa [List.append_nil] at hend

/-! ## Reading -/

/-- What becomes of components that are all in order. -/
inductive Summed : Except Fault Duration → Prop
  | positive {limit : Duration} (hpos : 1 ≤ limit.nanos) (hlt : limit.nanos < 2 ^ 64) :
      Summed (.ok limit)
  | nothing : Summed (.error .notPositive)
  | tooMuch : Summed (.error .overflow)

theorem summed_ofTotal {total : Nat} (h : Double.Representable total) : Summed (ofTotal total) := by
  have hpow : Nat.pow 2 64 = 2 ^ 64 := rfl
  rw [ofTotal, hpow]
  split
  · exact .tooMuch
  · next hlt =>
    have hbound : Double.toNatHalfUp total < 2 ^ 64 := h.toNatHalfUp_lt (Nat.lt_of_not_le hlt)
    split
    · exact .nothing
    · next hpos => exact .positive (Nat.one_le_iff_ne_zero.mpr hpos) hbound

/-- A text that begins with no minus sign, and what is left of it without one plus sign. -/
inductive Unsigned : List Char → List Char → Prop
  | plus (body : List Char) : Unsigned ('+' :: body) body
  | bare {c : Char} (rest : List Char) (hplus : c ≠ '+') (hminus : c ≠ '-') :
      Unsigned (c :: rest) (c :: rest)

theorem read_eq_readBody {text : String} (h : Unsigned (trimChars text.toList) body) :
    read text = readBody body := by
  unfold read
  generalize trimChars text.toList = t at h
  cases h with
  | plus => rfl
  | bare rest hplus hminus =>
    -- the first character is neither of the two signs
    split
    · next h => cases h
    · next h => exact absurd (List.cons.inj h).1 hminus
    · next h => exact absurd (List.cons.inj h).1 hplus
    · rfl

theorem readBody_of_ne (h : body ≠ ['0']) :
    readBody body =
      match addComponents 0 (components body) with
      | .ok total => ofTotal total
      | .error fault => .error fault :=
  if_neg h

theorem readBody_of_firstFault (hzero : body ≠ ['0']) (h : FirstFault body fault) :
    readBody body = .error fault := by
  rw [readBody_of_ne hzero, addComponents_of_firstFault h]

theorem summed_readBody (hzero : body ≠ ['0']) (h : ∀ fault, ¬ FirstFault body fault) :
    Summed (readBody body) := by
  obtain ⟨total, htotal, hsum⟩ := addComponents_of_no_fault h
  rw [readBody_of_ne hzero, hsum]
  exact summed_ofTotal htotal

theorem readBody_nil : readBody [] = .error .notPositive := by
  have hbelow : ¬ Nat.pow 2 64 * Double.one ≤ 0 :=
    Nat.not_le_of_lt (Nat.mul_pos (by decide) Double.one_pos)
  have hround : Double.toNatHalfUp 0 = 0 := by simpa using Double.toNatHalfUp_whole 0
  have hsum : addComponents 0 (components []) = .ok 0 := rfl
  rw [readBody_of_ne (by decide), hsum]
  simp only [ofTotal, if_neg hbelow, hround]

/-- What is left without its sign is neither called empty nor negative. -/
theorem readBody_ne (hfault : fault = .empty ∨ fault = .negative) (body : List Char) :
    readBody body ≠ .error fault := by
  intro h
  by_cases hzero : body = ['0']
  · rw [hzero] at h
    rcases hfault with rfl | rfl <;> cases h
  by_cases hfirst : ∃ first, FirstFault body first
  · obtain ⟨first, hfirst⟩ := hfirst
    rw [readBody_of_firstFault hzero hfirst] at h
    cases h
    obtain ⟨-, -, -, hfails⟩ := hfirst
    rcases hfault with rfl | rfl <;> cases hfails
  · have hsummed := summed_readBody hzero (not_exists.mp hfirst)
    rw [h] at hsummed
    rcases hfault with rfl | rfl <;> cases hsummed

theorem unsigned_cases (t : List Char) :
    t = [] ∨ (∃ rest, t = '-' :: rest) ∨ ∃ body, Unsigned t body := by
  cases t with
  | nil => exact .inl rfl
  | cons c rest =>
    by_cases hminus : c = '-'
    · exact .inr (.inl ⟨rest, by rw [hminus]⟩)
    by_cases hplus : c = '+'
    · exact .inr (.inr ⟨rest, hplus ▸ .plus rest⟩)
    · exact .inr (.inr ⟨_, .bare rest hplus hminus⟩)

/-- A duration is read as its grammar says: blank and negative texts are refused first, then the
first faulty component of what is left without a plus sign, and the sum comes last. -/
theorem read_grammar (text : String) :
    (read text = .error .empty ↔ trimChars text.toList = []) ∧
    (read text = .error .negative ↔ ∃ rest, trimChars text.toList = '-' :: rest) ∧
    ((∃ body, Unsigned (trimChars text.toList) body) ↔
      read text ≠ .error .empty ∧ read text ≠ .error .negative) ∧
    ∀ body, Unsigned (trimChars text.toList) body →
      (∃! ks, Cut body ks) ∧
      (body = [] ∨ body = ['0'] → read text = .error .notPositive) ∧
      (body ≠ ['0'] → ∀ fault, FirstFault body fault → read text = .error fault) ∧
      (body ≠ ['0'] → (∀ fault, ¬ FirstFault body fault) → Summed (read text)) := by
  have hempty (h : trimChars text.toList = []) : read text = .error .empty := by
    rw [read, h]
  have hnegative {rest : List Char} (h : trimChars text.toList = '-' :: rest) :
      read text = .error .negative := by
    rw [read, h]
    rfl
  have hunsigned {body : List Char} (h : Unsigned (trimChars text.toList) body) :
      read text ≠ .error .empty ∧ read text ≠ .error .negative := by
    rw [read_eq_readBody h]
    exact ⟨readBody_ne (.inl rfl) body, readBody_ne (.inr rfl) body⟩
  refine ⟨⟨fun h => ?_, hempty⟩, ⟨fun h => ?_, fun ⟨rest, hrest⟩ => hnegative hrest⟩,
    ⟨fun ⟨body, hbody⟩ => hunsigned hbody, fun h => ?_⟩, ?_⟩
  · rcases unsigned_cases (trimChars text.toList) with hnil | ⟨rest, hrest⟩ | ⟨body, hbody⟩
    · exact hnil
    · cases h.symm.trans (hnegative hrest)
    · exact absurd h (hunsigned hbody).1
  · rcases unsigned_cases (trimChars text.toList) with hnil | hrest | ⟨body, hbody⟩
    · cases h.symm.trans (hempty hnil)
    · exact hrest
    · exact absurd h (hunsigned hbody).2
  · rcases unsigned_cases (trimChars text.toList) with hnil | ⟨rest, hrest⟩ | hbody
    · exact absurd (hempty hnil) h.1
    · exact absurd (hnegative hrest) h.2
    · exact hbody
  · intro body hbody
    rw [read_eq_readBody hbody]
    refine ⟨⟨components body, cut_components body, fun ks h => h.components_eq.symm⟩, ?_,
      fun hzero fault => readBody_of_firstFault hzero, fun hzero => summed_readBody hzero⟩
    rintro (rfl | rfl)
    · exact readBody_nil
    · rfl

/-- Two points in the second component, behind a sign and a blank. -/
theorem read_second_missingNumber :
    Unsigned (trimChars " +5m1..5sx".toList) "5m1..5sx".toList ∧
      read " +5m1..5sx" = .error (.missingNumber "1..5sx") := by
  have hbody : Unsigned (trimChars " +5m1..5sx".toList) "5m1..5sx".toList := .plus _
  have hfirst : FirstFault "5m1..5sx".toList (.missingNumber "1..5sx") := by
    have hcut : Cut "5m1..5sx".toList ([⟨['5'], ['m']⟩] ++ ⟨"1..5".toList, "sx".toList⟩ :: []) :=
      cut_components _
    refine ⟨hcut, cut_components "1..5sx".toList, ?_, .missingNumber ?_⟩
    · intro x hx
      rw [List.mem_singleton.mp hx]
      exact ⟨⟨⟨'5', by decide⟩, by decide⟩, ⟨60000000000, by decide⟩⟩
    · rintro ⟨-, hpoints⟩
      exact absurd hpoints (by decide)
  exact ⟨hbody, ((read_grammar " +5m1..5sx").2.2.2 _ hbody).2.2.1 (by decide) _ hfirst⟩

end Ensemble.Duration

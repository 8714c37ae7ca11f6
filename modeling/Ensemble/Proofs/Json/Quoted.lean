import Ensemble.Json.Quoted

/-!
Strings between quotes are read as they were written: scanning up to the closing quote gives one
mark for each character, and the marks write the characters again.  What stands between the quotes
has no control character.
-/

namespace Ensemble.Json.Quoted

/-- Whether a character is written as a unit: a control character that has no letter of its own. -/
def isUnit (c : Char) : Bool :=
  c.toNat < 0x20 && !(['\x08', '\x0c', '\n', '\r', '\t'].contains c)

/-- The mark that scanning finds where a character was written. -/
def markOf (c : Char) : Mark :=
  if isUnit c then .unit c.toNat else .char c

theorem hexDigit?_hexChar : ∀ n < 16, hexDigit? (hexChar n) = some n := by decide

theorem hexUnit?_hexChar {n : Nat} (h : n < 0x20) :
    hexUnit? '0' '0' (hexChar (n / 16)) (hexChar (n % 16)) = some n := by
  have hzero : hexDigit? '0' = some 0 := rfl
  rw [hexUnit?, hzero, hexDigit?_hexChar _ (by omega), hexDigit?_hexChar _ (by omega)]
  simp only [Option.some.injEq]
  omega

/-- The three ways in which a character can stand between quotes: by a letter after a backslash, by
its number, or as it is. -/
theorem escape_cases (c : Char) :
    (∃ e, escape c = ['\\', e] ∧ escaped? e = some c ∧ markOf c = .char c) ∨
    (escape c = ['\\', 'u', '0', '0', hexChar (c.toNat / 16), hexChar (c.toNat % 16)] ∧
      c.toNat < 0x20 ∧ markOf c = .unit c.toNat) ∨
    (escape c = [c] ∧ 0x20 ≤ c.toNat ∧ c ≠ '"' ∧ c ≠ '\\' ∧ markOf c = .char c) := by
  unfold escape
  split
  next h => exact .inl ⟨'"', rfl, by rw [h]; rfl, by rw [h]; rfl⟩
  split
  next h => exact .inl ⟨'\\', rfl, by rw [h]; rfl, by rw [h]; rfl⟩
  split
  next h => exact .inl ⟨'b', rfl, by rw [h]; rfl, by rw [h]; rfl⟩
  split
  next h => exact .inl ⟨'f', rfl, by rw [h]; rfl, by rw [h]; rfl⟩
  split
  next h => exact .inl ⟨'n', rfl, by rw [h]; rfl, by rw [h]; rfl⟩
  split
  next h => exact .inl ⟨'r', rfl, by rw [h]; rfl, by rw [h]; rfl⟩
  split
  next h => exact .inl ⟨'t', rfl, by rw [h]; rfl, by rw [h]; rfl⟩
  next hquote hback hbs hff hlf hcr htab =>
  split
  next hcontrol =>
    have hunit : isUnit c = true := by simp [isUnit, hcontrol, hbs, hff, hlf, hcr, htab]
    exact .inr (.inl ⟨rfl, hcontrol, by rw [markOf, if_pos hunit]⟩)
  next hcontrol =>
    have hunit : isUnit c = false := by simp [isUnit, hcontrol]
    exact .inr (.inr ⟨rfl, by omega, hquote, hback, by rw [markOf, hunit]; rfl⟩)

theorem scan?_escape (c : Char) (rest : List Char) :
    scan? (escape c ++ rest) = (scan? rest).map fun r => (markOf c :: r.1, r.2) := by
  rcases escape_cases c with ⟨e, hc, he, hmark⟩ | ⟨hc, hcontrol, hmark⟩ |
    ⟨hc, hplain, hquote, hback, hmark⟩
  · rw [hc, hmark]
    show scan? ('\\' :: e :: rest) = _
    rw [scan?, he]
    · cases scan? rest <;> rfl
    -- no letter that stands for a character announces a unit
    · rintro _ _ _ _ _ rfl _
      cases he
  · rw [hc, hmark]
    show scan? ('\\' :: 'u' :: '0' :: '0' :: hexChar _ :: hexChar _ :: rest) = _
    rw [scan?, hexUnit?_hexChar hcontrol]
    cases scan? rest <;> rfl
  · have hnot : ¬ (c.toNat < 0x20 || c = '\\') = true := by
      simp [hback]
      omega
    rw [hc, hmark, List.singleton_append, scan?, if_neg hnot]
    · cases scan? rest <;> rfl
    all_goals simp [hquote, hback]

theorem scan?_flatMap_escape (cs rest : List Char) :
    scan? (cs.flatMap escape ++ '"' :: rest) = some (cs.map markOf, rest) := by
  induction cs with
  | nil => rw [List.flatMap_nil, List.nil_append, scan?, List.map_nil]
  | cons c cs ih =>
    rw [List.flatMap_cons, List.append_assoc, scan?_escape, ih]
    rfl

theorem chars?_char (c : Char) (marks : List Mark) :
    chars? (.char c :: marks) = (chars? marks).map (c :: ·) := by
  rw [chars?]

/-- A unit that is no surrogate writes its own character, whatever follows. -/
theorem chars?_unit {n : Nat} (h : n < 0xd800) (marks : List Mark) :
    chars? (.unit n :: marks) = (chars? marks).map (Char.ofNat n :: ·) := by
  have hhigh : isHighSurrogate n = false := by
    simp [isHighSurrogate]
    omega
  have hlow : isLowSurrogate n = false := by
    simp [isLowSurrogate]
    omega
  cases marks with
  | nil => simp [chars?, hhigh, hlow]
  | cons mark marks => cases mark <;> simp [chars?, hhigh, hlow]

theorem chars?_map_markOf (cs : List Char) : chars? (cs.map markOf) = some cs := by
  induction cs with
  | nil => rfl
  | cons c cs ih =>
    rw [List.map_cons, markOf]
    by_cases hc : isUnit c
    · have hsmall : c.toNat < 0xd800 := by
        simp [isUnit] at hc
        omega
      rw [if_pos hc, chars?_unit hsmall, ih, Char.ofNat_toNat]
      rfl
    · rw [if_neg hc, chars?_char, ih]
      rfl

theorem not_control_of_escaped? {e c : Char} (h : escaped? e = some c) : 0x20 ≤ e.toNat := by
  unfold escaped? at h
  split at h
  all_goals first | decide | cases h

theorem not_control_of_mem_escape {c x : Char} (h : x ∈ escape c) : 0x20 ≤ x.toNat := by
  have hhex : ∀ n < 16, 0x20 ≤ (hexChar n).toNat := by decide
  rcases escape_cases c with ⟨e, hc, he, -⟩ | ⟨hc, hcontrol, -⟩ | ⟨hc, hplain, -⟩
  · simp only [hc, List.mem_cons, List.not_mem_nil, or_false] at h
    rcases h with rfl | rfl
    · decide
    · exact not_control_of_escaped? he
  · simp only [hc, List.mem_cons, List.not_mem_nil, or_false] at h
    rcases h with rfl | rfl | rfl | rfl | rfl | rfl
    · decide
    · decide
    · decide
    · decide
    · apply hhex
      omega
    · apply hhex
      omega
  · rw [hc] at h
    rw [List.mem_singleton.mp h]
    exact hplain

/-- No control character stands between quotes. -/
theorem not_control_of_mem_write {s : String} {x : Char} (h : x ∈ write s) : 0x20 ≤ x.toNat := by
  rw [write] at h
  simp only [List.cons_append, List.mem_cons, List.mem_append, List.mem_flatMap,
    List.not_mem_nil, or_false] at h
  rcases h with rfl | ⟨c, -, hc⟩ | rfl
  · decide
  · exact not_control_of_mem_escape hc
  · decide

end Ensemble.Json.Quoted

import Ensemble.Json.Reader
import Ensemble.Json.Writer
import Ensemble.Proofs.Json.Depth
import Ensemble.Proofs.Json.Numeral
import Ensemble.Proofs.Json.Quoted
import Ensemble.Proofs.Json.Tree
import Mathlib.Data.List.Basic

/-!
JSON text that was written by this library is read as the value it was written for, as long as its
numbers are whole numbers of 64 bits and its brackets are nested no deeper than a reader allows.
The text is all on one line.
-/

namespace Ensemble.Json

open Ensemble.Text

/-! ## Entries between brackets -/

section Entries

variable {α : Type} {entry : List Char → Option (α × List Char)} {close : Char}

/-- Texts with a comma between any two of them. -/
def separated (texts : List (List Char)) : List Char :=
  [','].intercalate texts

theorem separated_cons_cons (a b : List Char) (texts : List (List Char)) :
    separated (a :: b :: texts) = a ++ ',' :: separated (b :: texts) := by
  simp [separated, List.intercalate]

theorem separated_singleton (a : List Char) : separated [a] = a := by
  simp [separated, List.intercalate]

theorem length_le_separated (texts : List (List Char)) (h : ∀ t ∈ texts, t ≠ []) :
    texts.length ≤ (separated texts).length := by
  induction texts with
  | nil => simp
  | cons a texts ih =>
    have ha : 0 < a.length := List.length_pos_of_ne_nil (h a List.mem_cons_self)
    cases texts with
    | nil =>
      rw [separated_singleton, List.length_singleton]
      exact ha
    | cons b texts =>
      have := ih fun t ht => h t (List.mem_cons_of_mem a ht)
      simp only [separated_cons_cons, List.length_append, List.length_cons] at this ⊢
      omega

/-- A text that is read as an entry, whichever of the two marks follows it. -/
def ReadsAs (entry : List Char → Option (α × List Char)) (close : Char) (e : List Char × α) :
    Prop :=
  ∀ c rest, c = ',' ∨ c = close → entry (e.1 ++ c :: rest) = some (e.2, c :: rest)

theorem readEntries_separated (hclose : isSpace close = false ∧ close ≠ ',')
    {es : List (List Char × α)} (hne : es ≠ []) (hes : ∀ e ∈ es, ReadsAs entry close e) {n : Nat}
    (hn : es.length ≤ n) (rest : List Char) :
    readEntries entry close n (separated (es.map Prod.fst) ++ close :: rest) =
      some (es.map Prod.snd, rest) := by
  induction es generalizing n with
  | nil => exact absurd rfl hne
  | cons e es ih =>
    obtain ⟨n, rfl⟩ : ∃ m, n = m + 1 := ⟨n - 1, by rw [List.length_cons] at hn; omega⟩
    have he := hes e List.mem_cons_self
    cases es with
    | nil =>
      rw [List.map_singleton, separated_singleton, readEntries, he close rest (.inr rfl)]
      simp [skipSpace, hclose.1, hclose.2]
    | cons f es =>
      have hrest := ih (List.cons_ne_nil f es) (fun e he => hes e (List.mem_cons_of_mem _ he))
        (Nat.le_of_succ_le_succ hn)
      rw [List.map_cons, List.map_cons, separated_cons_cons, List.append_assoc, List.cons_append,
        readEntries, he ',' _ (.inl rfl)]
      rw [List.map_cons] at hrest
      simp [skipSpace, isSpace, hrest]

/-- Entries that begin neither with a blank nor with the closing bracket are read between
brackets. -/
theorem readBracket_separated (hclose : isSpace close = false ∧ close ≠ ',')
    {es : List (List Char × α)} (hes : ∀ e ∈ es, ReadsAs entry close e)
    (hhead : ∀ e ∈ es, ∃ c cs, e.1 = c :: cs ∧ isSpace c = false ∧ c ≠ close) (rest : List Char) :
    readBracket entry close (separated (es.map Prod.fst) ++ close :: rest) =
      some (es.map Prod.snd, rest) := by
  cases es with
  | nil => simp [readBracket, separated, skipSpace, hclose.1]
  | cons e es =>
    obtain ⟨c, cs, hc, hspace, hne⟩ := hhead e List.mem_cons_self
    have hbegin : ∃ more, separated ((e :: es).map Prod.fst) ++ close :: rest = c :: more := by
      cases es with
      | nil => exact ⟨_, by rw [List.map_singleton, separated_singleton, hc]; rfl⟩
      | cons f es =>
        exact ⟨_, by rw [List.map_cons, List.map_cons, separated_cons_cons, hc]; rfl⟩
    have hlength :
        (e :: es).length ≤ (separated ((e :: es).map Prod.fst) ++ close :: rest).length := by
      have := length_le_separated ((e :: es).map Prod.fst) (by
        intro t ht
        obtain ⟨f, hf, rfl⟩ := List.mem_map.mp ht
        obtain ⟨c, cs, hc, -⟩ := hhead f hf
        rw [hc]
        exact List.cons_ne_nil c cs)
      rw [List.length_map] at this
      rw [List.length_append]
      omega
    have hread := readEntries_separated hclose (List.cons_ne_nil e es) hes hlength rest
    obtain ⟨more, hmore⟩ := hbegin
    rw [hmore] at hread ⊢
    simp only [readBracket, skipSpace, List.dropWhile_cons, hspace, Bool.false_eq_true, if_false,
      if_neg hne]
    exact hread

end Entries

/-! ## One value -/

theorem writeItems_eq (items : List Json) : writeItems items = separated (items.map write) := by
  induction items with
  | nil => rfl
  | cons j items ih =>
    cases items with
    | nil => rw [List.map_singleton, separated_singleton, writeItems]
    | cons i items =>
      rw [List.map_cons, List.map_cons, separated_cons_cons, writeItems, ih]
      · rfl
      · nofun

/-- How a member stands in an object. -/
def writeMember (m : String × Json) : List Char :=
  Quoted.write m.1 ++ ':' :: write m.2

theorem writeMembers_eq (members : List (String × Json)) :
    writeMembers members = separated (members.map writeMember) := by
  induction members with
  | nil => rfl
  | cons m members ih =>
    obtain ⟨k, j⟩ := m
    cases members with
    | nil => rw [List.map_singleton, separated_singleton, writeMembers, writeMember]
    | cons l members =>
      rw [List.map_cons, List.map_cons, separated_cons_cons, writeMembers, ih]
      · simp [writeMember]
      · nofun

theorem isSpace_of_isDigit {c : Char} (h : isDigit c = true) : isSpace c = false := by
  have hne {d : Char} (hd : isDigit d = false) : c ≠ d := Numeral.ne_of_isDigit h hd
  simp [isSpace, hne (d := ' ') rfl, hne (d := '\t') rfl, hne (d := '\n') rfl,
    hne (d := '\r') rfl]

theorem intDigits_head (n : Int) :
    ∃ c cs, Double.intDigits n = c :: cs ∧ (c = '-' ∨ isDigit c = true) := by
  rw [Double.intDigits]
  split
  · exact ⟨_, _, rfl, .inl rfl⟩
  · obtain ⟨c, cs, hcs, -⟩ := exists_toDigits_eq n.natAbs
    exact ⟨c, cs, hcs, .inr (isDigit_of_mem_toDigits n.natAbs c (by simp [hcs]))⟩

/-- A written value begins with a character that is no blank and no closing bracket. -/
theorem write_head {j : Json} (hj : j.wholeNumbers = true) :
    ∃ c cs, write j = c :: cs ∧ isSpace c = false ∧ c ≠ ']' := by
  cases j with
  | null => exact ⟨_, _, rfl, by decide, by decide⟩
  | bool b => cases b <;> exact ⟨_, _, rfl, by decide, by decide⟩
  | number n =>
    cases n with
    | double negative magnitude => cases hj
    | int n =>
      obtain ⟨c, cs, hcs, hc⟩ := intDigits_head n
      refine ⟨c, cs, hcs, ?_⟩
      rcases hc with rfl | hc
      · decide
      · exact ⟨isSpace_of_isDigit hc, Numeral.ne_of_isDigit hc (by decide)⟩
  | string s => exact ⟨_, _, rfl, by decide, by decide⟩
  | array items => exact ⟨_, _, by rw [write]; rfl, by decide, by decide⟩
  | object members => exact ⟨_, _, by rw [write]; rfl, by decide, by decide⟩

theorem skipSpace_cons {c : Char} (cs : List Char) (hc : isSpace c = false) :
    skipSpace (c :: cs) = c :: cs := by
  simp [skipSpace, hc]

theorem readTree_number (depth allowed : Nat) {n : Int} (hn : Number.inRange n = true)
    {rest : List Char} (hrest : Numeral.Stops rest) :
    readTree (depth + 1) allowed (Double.intDigits n ++ rest) =
      some (.number (.int n), rest) := by
  obtain ⟨c, cs, hcs, hc⟩ := intDigits_head n
  have hspace : isSpace c = false := by
    rcases hc with rfl | hc
    · rfl
    · exact isSpace_of_isDigit hc
  -- no other value begins with a minus sign or a digit
  have hne {d : Char} (hd : d ≠ '-' ∧ isDigit d = false) : c ≠ d := by
    rcases hc with rfl | hc
    · exact hd.1.symm
    · exact Numeral.ne_of_isDigit hc hd.2
  have hskip : skipSpace (Double.intDigits n ++ rest) = Double.intDigits n ++ rest := by
    rw [hcs]
    exact skipSpace_cons _ hspace
  have hhead {d : Char} {ds : List Char} (heq : Double.intDigits n ++ rest = d :: ds) : c = d := by
    rw [hcs] at heq
    exact (List.cons.inj heq).1
  rw [readTree, hskip]
  split
  next heq => exact absurd (hhead heq) (hne (by decide))
  next heq => exact absurd (hhead heq) (hne (by decide))
  next heq => exact absurd (hhead heq) (hne (by decide))
  next heq => exact absurd (hhead heq) (hne (by decide))
  next heq => exact absurd (hhead heq) (hne (by decide))
  next heq => exact absurd (hhead heq) (hne (by decide))
  next => simp [Numeral.scan?_intDigits n hrest, Numeral.value?_ofInt hn]

theorem readString_write (s : String) (rest : List Char) :
    readString (s.toList.flatMap Quoted.escape ++ '"' :: rest) = some (some s, rest) := by
  simp [readString, Quoted.scan?_flatMap_escape, Quoted.chars?_map_markOf]

theorem write_string_append (s : String) (rest : List Char) :
    Quoted.write s ++ rest = '"' :: (s.toList.flatMap Quoted.escape ++ '"' :: rest) := by
  simp [Quoted.write]

theorem readMember_write {value : List Char → Option (Tree × List Char)} {m : String × Json}
    {t : Tree} {rest : List Char} (h : value (write m.2 ++ rest) = some (t, rest)) :
    readMember value (writeMember m ++ rest) = some ((some m.1, t), rest) := by
  rw [writeMember, List.append_assoc, write_string_append, readMember,
    skipSpace_cons _ (by decide)]
  simp only [readString_write, List.cons_append]
  rw [skipSpace_cons _ (by decide)]
  simp only [h]

theorem objectTree_some (members : List (String × Tree)) :
    objectTree (members.map fun m => (some m.1, m.2)) = .object members := by
  have hmembers : (members.map fun m => (some m.1, m.2)).mapM
      (fun m => m.1.map fun k => (k, m.2)) = some members := by
    induction members with
    | nil => rfl
    | cons m members ih => simp [List.mapM_cons, ih]
  rw [objectTree, hmembers]

theorem Numeral.stops_of_mark {c close : Char} (hclose : close = ']' ∨ close = '}')
    (hc : c = ',' ∨ c = close) (rest : List Char) : Numeral.Stops (c :: rest) := by
  rw [Numeral.stops_cons]
  rcases hc with rfl | rfl
  · decide
  · rcases hclose with rfl | rfl <;> decide

/-- Written values between square brackets are read if each of them is. -/
theorem readBracket_items {value : List Char → Option (Tree × List Char)} {items : List Json}
    (hwhole : ∀ j ∈ items, j.wholeNumbers = true)
    (hvalue : ∀ j ∈ items, ∀ {rest}, Numeral.Stops rest →
      value (j.write ++ rest) = some (.ofJson j, rest)) (rest : List Char) :
    readBracket value ']' (writeItems items ++ ']' :: rest) = some (Tree.ofItems items, rest) := by
  have hread : ∀ e ∈ items.map fun j => (j.write, Tree.ofJson j), ReadsAs value ']' e := by
    intro e he c more hc
    obtain ⟨j, hmem, rfl⟩ := List.mem_map.mp he
    exact hvalue j hmem (Numeral.stops_of_mark (.inl rfl) hc more)
  have hhead : ∀ e ∈ items.map fun j => (j.write, Tree.ofJson j),
      ∃ c cs, e.1 = c :: cs ∧ isSpace c = false ∧ c ≠ ']' := by
    intro e he
    obtain ⟨j, hmem, rfl⟩ := List.mem_map.mp he
    exact write_head (hwhole j hmem)
  simpa [writeItems_eq, Tree.ofItems_eq, Function.comp_def] using
    readBracket_separated (by decide) hread hhead rest

/-- Written members between braces are read if each of their values is. -/
theorem readBracket_members {value : List Char → Option (Tree × List Char)}
    {members : List (String × Json)}
    (hvalue : ∀ m ∈ members, ∀ {rest}, Numeral.Stops rest →
      value (m.2.write ++ rest) = some (.ofJson m.2, rest)) (rest : List Char) :
    readBracket (readMember value) '}' (writeMembers members ++ '}' :: rest) =
      some (members.map fun m => (some m.1, Tree.ofJson m.2), rest) := by
  have hread : ∀ e ∈ members.map fun m => (writeMember m, (some m.1, Tree.ofJson m.2)),
      ReadsAs (readMember value) '}' e := by
    intro e he c more hc
    obtain ⟨m, hmem, rfl⟩ := List.mem_map.mp he
    exact readMember_write (hvalue m hmem (Numeral.stops_of_mark (.inr rfl) hc more))
  have hhead : ∀ e ∈ members.map fun m => (writeMember m, (some m.1, Tree.ofJson m.2)),
      ∃ c cs, e.1 = c :: cs ∧ isSpace c = false ∧ c ≠ '}' := by
    intro e he
    obtain ⟨m, hmem, rfl⟩ := List.mem_map.mp he
    exact ⟨'"', _, rfl, by decide, by decide⟩
  simpa [writeMembers_eq, Function.comp_def] using
    readBracket_separated (by decide) hread hhead rest

/-- A written value is read again, and what follows it is left over. -/
theorem readTree_write {j : Json} {depth allowed : Nat} {rest : List Char}
    (hj : j.wholeNumbers = true) (hdepth : j.depth < depth) (hallowed : j.depth ≤ allowed)
    (hrest : Numeral.Stops rest) :
    readTree depth allowed (j.write ++ rest) = some (.ofJson j, rest) := by
  induction j generalizing depth allowed rest with
  | null =>
    obtain ⟨depth, rfl⟩ := Nat.exists_eq_add_one_of_ne_zero (Nat.ne_zero_of_lt hdepth)
    rfl
  | bool b =>
    obtain ⟨depth, rfl⟩ := Nat.exists_eq_add_one_of_ne_zero (Nat.ne_zero_of_lt hdepth)
    cases b <;> rfl
  | number n =>
    obtain ⟨depth, rfl⟩ := Nat.exists_eq_add_one_of_ne_zero (Nat.ne_zero_of_lt hdepth)
    cases n with
    | int n => exact readTree_number depth allowed hj hrest
    | double negative magnitude => cases hj
  | string s =>
    obtain ⟨depth, rfl⟩ := Nat.exists_eq_add_one_of_ne_zero (Nat.ne_zero_of_lt hdepth)
    rw [write, write_string_append, readTree, skipSpace_cons _ (by decide)]
    simp only [readString_write]
    rfl
  | array items ih =>
    obtain ⟨depth, rfl⟩ := Nat.exists_eq_add_one_of_ne_zero (Nat.ne_zero_of_lt hdepth)
    have hwhole := (wholeItems_iff items).mp hj
    have hread := @readBracket_items (readTree depth (allowed - 1)) items hwhole (by
      intro j hmem more hmore
      have hlt := depth_lt_of_mem_items hmem
      exact ih j hmem (hwhole j hmem) (by omega) (by omega) hmore) rest
    rw [write, List.append_assoc, List.cons_append, List.singleton_append, readTree,
      skipSpace_cons _ (by decide)]
    simp only [hread, withinLimit]
    rw [if_neg (by rw [Json.depth] at hallowed; omega), Tree.ofJson]
  | object members ih =>
    obtain ⟨depth, rfl⟩ := Nat.exists_eq_add_one_of_ne_zero (Nat.ne_zero_of_lt hdepth)
    have hwhole := (wholeMembers_iff members).mp hj
    have hread := @readBracket_members (readTree depth (allowed - 1)) members (by
      intro m hmem more hmore
      have hlt := depth_lt_of_mem_members hmem
      exact ih m hmem (hwhole m hmem) (by omega) (by omega) hmore) rest
    have hobject := objectTree_some (members.map fun m => (m.1, Tree.ofJson m.2))
    rw [List.map_map] at hobject
    rw [write, List.append_assoc, List.cons_append, List.singleton_append, readTree,
      skipSpace_cons _ (by decide)]
    simp only [hread, withinLimit]
    rw [if_neg (by rw [Json.depth] at hallowed; omega), Tree.ofJson, Tree.ofMembers_eq, ← hobject]
    rfl

/-! ## Whole texts -/

theorem length_le_of_mem_separated {t : List Char} {texts : List (List Char)} (h : t ∈ texts) :
    t.length ≤ (separated texts).length := by
  induction texts with
  | nil => cases h
  | cons a texts ih =>
    cases texts with
    | nil =>
      obtain rfl := List.mem_singleton.mp h
      exact Nat.le_of_eq (congrArg List.length (separated_singleton t).symm)
    | cons b texts =>
      rw [separated_cons_cons, List.length_append, List.length_cons]
      rcases List.mem_cons.mp h with rfl | h
      · omega
      · have := ih h
        omega

/-- Each bracket takes a character. -/
theorem depth_le_length_write (j : Json) : j.depth ≤ (write j).length := by
  induction j with
  | array items ih =>
    have hitems : depthItems items ≤ (writeItems items).length := by
      rw [depthItems_le_iff, writeItems_eq]
      intro j hj
      exact Nat.le_trans (ih j hj) (length_le_of_mem_separated (List.mem_map_of_mem hj))
    rw [depth, write, List.length_append, List.length_cons]
    omega
  | object members ih =>
    have hmembers : depthMembers members ≤ (writeMembers members).length := by
      rw [depthMembers_le_iff, writeMembers_eq]
      intro m hm
      have hlength : (write m.2).length ≤ (writeMember m).length := by
        rw [writeMember, List.length_append, List.length_cons]
        omega
      have hmember := length_le_of_mem_separated (List.mem_map_of_mem (f := writeMember) hm)
      exact Nat.le_trans (ih m hm) (Nat.le_trans hlength hmember)
    rw [depth, write, List.length_append, List.length_cons]
    omega
  | _ => exact Nat.zero_le _

theorem Tree.ofChars?_write {j : Json} (hj : j.Plain nestingLimit) :
    Tree.ofChars? j.write = some (.ofJson j) := by
  have hread := readTree_write hj.whole (Nat.lt_succ_of_le (depth_le_length_write j)) hj.shallow
    Numeral.stops_nil
  rw [List.append_nil] at hread
  rw [Tree.ofChars?, hread]
  rfl

/-- A written text is read as what the written value says. -/
theorem ofText?_write {written meant : Json} (hplain : written.Plain nestingLimit)
    (hmeant : Tree.Says written meant) :
    ofText? (String.ofList written.write) = some meant := by
  rw [ofText?, ofChars?, String.toList_ofList, Tree.ofChars?_write hplain]
  exact hmeant

theorem mem_separated {x : Char} {texts : List (List Char)} (h : x ∈ separated texts) :
    x = ',' ∨ ∃ t ∈ texts, x ∈ t := by
  induction texts with
  | nil => cases h
  | cons a texts ih =>
    cases texts with
    | nil =>
      rw [separated_singleton] at h
      exact .inr ⟨a, List.mem_singleton_self a, h⟩
    | cons b texts =>
      rw [separated_cons_cons] at h
      rcases List.mem_append.mp h with h | h
      · exact .inr ⟨a, List.mem_cons_self, h⟩
      rcases List.mem_cons.mp h with rfl | h
      · exact .inl rfl
      rcases ih h with hcomma | ⟨t, ht, hx⟩
      · exact .inl hcomma
      · exact .inr ⟨t, List.mem_cons_of_mem a ht, hx⟩

theorem not_control_of_isDigit {x : Char} (h : isDigit x = true) : 0x20 ≤ x.toNat := by
  rw [isDigit, Bool.and_eq_true, decide_eq_true_eq, decide_eq_true_eq] at h
  have hzero : 0x30 ≤ x.toNat := h.1
  omega

theorem not_control_of_mem_brackets {o c : Char} (ho : 0x20 ≤ o.toNat) (hc : 0x20 ≤ c.toNat)
    {texts : List (List Char)} (htexts : ∀ t ∈ texts, ∀ x ∈ t, 0x20 ≤ x.toNat) {x : Char}
    (hx : x ∈ o :: separated texts ++ [c]) : 0x20 ≤ x.toNat := by
  rw [List.cons_append, List.mem_cons, List.mem_append, List.mem_singleton] at hx
  rcases hx with rfl | hx | rfl
  · exact ho
  · rcases mem_separated hx with rfl | ⟨t, ht, hx⟩
    · decide
    · exact htexts t ht x hx
  · exact hc

/-- No control character stands in a written text: in particular it is on one line. -/
theorem not_control_of_mem_write {j : Json} (hj : j.wholeNumbers = true) {x : Char}
    (hx : x ∈ write j) : 0x20 ≤ x.toNat := by
  induction j generalizing x with
  | null =>
    have hall : (write .null).all (fun x => 0x20 ≤ x.toNat) = true := rfl
    exact of_decide_eq_true (List.all_eq_true.mp hall x hx)
  | bool b =>
    have hall : (write (.bool b)).all (fun x => 0x20 ≤ x.toNat) = true := by cases b <;> rfl
    exact of_decide_eq_true (List.all_eq_true.mp hall x hx)
  | number n =>
    cases n with
    | double negative magnitude => cases hj
    | int n =>
      rw [write, Number.write, Double.intDigits] at hx
      have hdigits : ∀ x ∈ toDigits n.natAbs, 0x20 ≤ x.toNat :=
        fun x hx => not_control_of_isDigit (isDigit_of_mem_toDigits _ x hx)
      split at hx
      · rcases List.mem_cons.mp hx with rfl | hx
        · decide
        · exact hdigits x hx
      · exact hdigits x hx
  | string s => exact Quoted.not_control_of_mem_write hx
  | array items ih =>
    rw [write, writeItems_eq] at hx
    refine not_control_of_mem_brackets (by decide) (by decide) (fun t ht x hx => ?_) hx
    obtain ⟨j, hmem, rfl⟩ := List.mem_map.mp ht
    exact ih j hmem ((wholeItems_iff items).mp hj j hmem) hx
  | object members ih =>
    rw [write, writeMembers_eq] at hx
    refine not_control_of_mem_brackets (by decide) (by decide) (fun t ht x hx => ?_) hx
    obtain ⟨m, hmem, rfl⟩ := List.mem_map.mp ht
    rw [writeMember, List.mem_append, List.mem_cons] at hx
    rcases hx with hx | rfl | hx
    · exact Quoted.not_control_of_mem_write hx
    · decide
    · exact ih m hmem ((wholeMembers_iff members).mp hj m hmem) hx

end Ensemble.Json

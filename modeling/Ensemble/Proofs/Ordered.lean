import Ensemble.Ordered
import Mathlib.Data.List.Nodup

/-!
The theory of ordered maps.  A map with increasing keys is determined by what it holds at each key,
altering it keeps the keys increasing, and it is the list of its keys, each with what it holds
there.
-/

namespace Ensemble.Ordered

variable {κ α : Type} [DecidableEq κ]

def keys (m : List (κ × α)) : List κ :=
  m.map Prod.fst

@[simp] theorem get?_nil (k : κ) : get? k ([] : List (κ × α)) = none := rfl

@[simp] theorem get?_cons (k k' : κ) (a : α) (m : List (κ × α)) :
    get? k ((k', a) :: m) = if k = k' then some a else get? k m := rfl

theorem get?_isSome_iff (k : κ) (m : List (κ × α)) : (get? k m).isSome ↔ k ∈ keys m := by
  induction m with
  | nil => simp [keys]
  | cons p m ih =>
    obtain ⟨k', a⟩ := p
    rw [get?_cons, keys, List.map_cons, List.mem_cons]
    by_cases hk : k = k'
    · simp [hk]
    · rw [if_neg hk, ih]
      simp [hk, keys]

theorem get?_eq_none_iff (k : κ) (m : List (κ × α)) : get? k m = none ↔ k ∉ keys m := by
  rw [← get?_isSome_iff, Option.not_isSome_iff_eq_none]

theorem mem_of_get? {k : κ} {a : α} {m : List (κ × α)} (h : get? k m = some a) : (k, a) ∈ m := by
  induction m with
  | nil => cases h
  | cons p m ih =>
    rw [get?_cons] at h
    split at h
    · next hk =>
      cases h
      rw [hk]
      exact List.mem_cons_self
    · exact List.mem_cons_of_mem _ (ih h)

theorem get?_append (k : κ) (l m : List (κ × α)) : get? k (l ++ m) = (get? k l).or (get? k m) := by
  induction l with
  | nil => rfl
  | cons p l ih =>
    rw [List.cons_append, get?_cons, get?_cons, ih]
    split <;> rfl

theorem get?_eq_some_iff {k : κ} {a : α} {m : List (κ × α)} (h : (keys m).Nodup) :
    get? k m = some a ↔ (k, a) ∈ m := by
  refine ⟨mem_of_get?, fun hmem => ?_⟩
  induction m with
  | nil => cases hmem
  | cons p m ih =>
    rw [keys, List.map_cons, List.nodup_cons] at h
    rcases List.mem_cons.mp hmem with rfl | hmem
    · simp
    · rw [get?_cons, if_neg]
      · exact ih h.2 hmem
      -- a key that comes again would be a repetition
      · intro hk
        rw [← hk] at h
        exact h.1 (List.mem_map.mpr ⟨(k, a), hmem, rfl⟩)

theorem get?_map {β : Type} (k : κ) (f : α → β) (l : List (κ × α)) :
    get? k (l.map fun p => (p.1, f p.2)) = (get? k l).map f := by
  induction l with
  | nil => rfl
  | cons p l ih =>
    rw [List.map_cons, get?_cons, get?_cons, ih]
    split <;> rfl

omit [DecidableEq κ] in
theorem keys_map {β : Type} (f : α → β) (l : List (κ × α)) :
    keys (l.map fun p => (p.1, f p.2)) = keys l := by
  rw [keys, List.map_map, keys]
  rfl

omit [DecidableEq κ] in
theorem nodup_keys_filter {l : List (κ × α)} (h : (keys l).Nodup) (keep : κ × α → Bool) :
    (keys (l.filter keep)).Nodup :=
  (List.filter_sublist.map Prod.fst).nodup h

theorem get?_filter {k : κ} {keep : κ → Bool} (hk : keep k = true) (l : List (κ × α)) :
    get? k (l.filter fun p => keep p.1) = get? k l := by
  induction l with
  | nil => rfl
  | cons p l ih =>
    rw [List.filter_cons, get?_cons]
    by_cases hp : k = p.1
    · rw [← hp, if_pos hk, get?_cons, if_pos hp, if_pos rfl]
    · rw [if_neg hp, ← ih]
      split
      · rw [get?_cons, if_neg hp]
      · rfl

/-- Without repeated keys, only one pair has a key. -/
theorem filter_key {k : κ} {a : α} {m : List (κ × α)} (h : (keys m).Nodup)
    (hget : get? k m = some a) : m.filter (fun p => p.1 == k) = [(k, a)] := by
  induction m with
  | nil => cases hget
  | cons p m ih =>
    obtain ⟨l, b⟩ := p
    obtain ⟨hnot, hnodup⟩ := List.nodup_cons.mp h
    rw [get?_cons] at hget
    by_cases hk : k = l
    · subst hk
      have hrest : m.filter (fun p => p.1 == k) = [] := by
        rw [List.filter_eq_nil_iff]
        intro p hp heq
        have hmem : p.1 ∈ keys m := List.mem_map_of_mem hp
        rw [eq_of_beq heq] at hmem
        exact hnot hmem
      rw [if_pos rfl] at hget
      rw [List.filter_cons, if_pos (beq_self_eq_true k), hrest, Option.some.inj hget]
    · rw [if_neg hk] at hget
      rw [List.filter_cons, if_neg (by simpa using Ne.symm hk), ih hnodup hget]

theorem mem_of_mem_insert [LT κ] [DecidableLT κ] {k : κ} {a : α} {m : List (κ × α)} {q : κ × α}
    (h : q ∈ insert k a m) : q = (k, a) ∨ q ∈ m := by
  rw [insert] at h
  induction m with
  | nil => exact Or.inl (List.mem_singleton.mp h)
  | cons p m ih =>
    rw [alter] at h
    split at h
    · exact (List.mem_cons.mp h).imp_right (List.mem_cons_of_mem p)
    · split at h
      · exact List.mem_cons.mp h
      · rcases List.mem_cons.mp h with rfl | h
        · exact Or.inr List.mem_cons_self
        · exact (ih h).imp_right (List.mem_cons_of_mem p)

section Sorted

omit [DecidableEq κ]

variable [LT κ]

theorem Sorted.tail {p : κ × α} {m : List (κ × α)} (h : Sorted (p :: m)) : Sorted m := h.2

theorem Sorted.head_lt {p : κ × α} {m : List (κ × α)} (h : Sorted (p :: m)) {k : κ}
    (hk : k ∈ keys m) : p.1 < k := by
  obtain ⟨q, hq, rfl⟩ := List.mem_map.mp hk
  exact h.1 q hq

theorem Sorted.pairwise_keys {m : List (κ × α)} (h : Sorted m) : (keys m).Pairwise (· < ·) := by
  induction m with
  | nil => exact List.Pairwise.nil
  | cons p m ih => exact List.Pairwise.cons (fun k hk => h.head_lt hk) (ih h.tail)

theorem sorted_of_pairwise_keys {m : List (κ × α)} (h : (keys m).Pairwise (· < ·)) : Sorted m := by
  induction m with
  | nil => trivial
  | cons p m ih =>
    have hcons := List.pairwise_cons.mp h
    exact ⟨fun q hq => hcons.1 q.1 (List.mem_map_of_mem hq), ih hcons.2⟩

end Sorted

theorem alter_ne_nil [LT κ] [DecidableLT κ] (k : κ) (f : Option α → α) (m : List (κ × α)) :
    alter k f m ≠ [] := by
  cases m with
  | nil => simp [alter]
  | cons p m =>
    rw [alter]
    split
    · simp
    · split <;> simp

variable [LE κ] [LT κ] [Std.IsLinearOrder κ] [Std.LawfulOrderLT κ]

theorem Sorted.get?_of_lt {k k' : κ} {a : α} {m : List (κ × α)} (h : Sorted ((k', a) :: m))
    (hlt : k < k') : get? k m = none := by
  rw [get?_eq_none_iff]
  intro hk
  exact Std.lt_irrefl (Std.lt_trans hlt (h.head_lt hk))

omit [Std.IsLinearOrder κ] in
/-- A map with increasing keys lists its keys, each with what it holds there. -/
theorem Sorted.eq_map_keys {m : List (κ × α)} (h : Sorted m) (fallback : α) :
    m = (keys m).map fun k => (k, (get? k m).getD fallback) := by
  induction m with
  | nil => rfl
  | cons p m ih =>
    obtain ⟨l, a⟩ := p
    -- the first key is below all the others, so it hides none of them
    have hrest : ∀ k ∈ keys m, get? k ((l, a) :: m) = get? k m := by
      intro k hk
      rw [get?_cons, if_neg]
      rintro rfl
      exact Std.lt_irrefl (h.head_lt hk)
    rw [keys, List.map_cons, List.map_cons, get?_cons, if_pos rfl, Option.getD_some]
    congr 1
    calc m = (keys m).map fun k => (k, (get? k m).getD fallback) := ih h.tail
      _ = _ := List.map_congr_left fun k hk => by rw [hrest k hk]

variable [DecidableLT κ]

theorem get?_alter (k k' : κ) (f : Option α → α) {m : List (κ × α)} (h : Sorted m) :
    get? k' (alter k f m) = if k' = k then some (f (get? k m)) else get? k' m := by
  -- altering the place of one key leaves what lies at every other one
  induction m with
  | nil => simp [alter]
  | cons p m ih =>
    obtain ⟨l, a⟩ := p
    rw [alter]
    by_cases hkl : k = l
    · rw [if_pos hkl, get?_cons, get?_cons, get?_cons, if_pos hkl]
      by_cases hk : k' = k
      · rw [if_pos hk, if_pos hk]
      · rw [if_neg hk, if_neg hk, if_neg (fun e => hk (e.trans hkl.symm))]
    · rw [if_neg hkl]
      by_cases hlt : k < l
      -- a key below the first one was not there before
      · rw [if_pos hlt, get?_cons k' k, get?_cons k l, if_neg hkl, h.get?_of_lt hlt]
      · rw [if_neg hlt, get?_cons k' l, get?_cons k l, if_neg hkl, get?_cons k' l, ih h.tail]
        by_cases hk : k' = k
        · rw [if_pos hk, if_pos hk, if_neg (fun e => hkl (hk.symm.trans e))]
        · rw [if_neg hk, if_neg hk]

theorem mem_keys_alter (k k' : κ) (f : Option α → α) {m : List (κ × α)} (h : Sorted m) :
    k' ∈ keys (alter k f m) ↔ k' = k ∨ k' ∈ keys m := by
  rw [← get?_isSome_iff, ← get?_isSome_iff, get?_alter k k' f h]
  by_cases hk : k' = k
  · simp [hk]
  · rw [if_neg hk]
    simp [hk]

theorem sorted_alter (k : κ) (f : Option α → α) {m : List (κ × α)} (h : Sorted m) :
    Sorted (alter k f m) := by
  induction m with
  | nil => exact ⟨by simp, trivial⟩
  | cons p m ih =>
    obtain ⟨l, a⟩ := p
    rw [alter]
    by_cases hkl : k = l
    · rw [if_pos hkl, hkl]
      exact ⟨h.1, h.2⟩
    · rw [if_neg hkl]
      by_cases hlt : k < l
      · rw [if_pos hlt]
        refine ⟨fun q hq => ?_, h⟩
        rcases List.mem_cons.mp hq with rfl | hq
        · exact hlt
        · exact Std.lt_trans hlt (h.1 q hq)
      · rw [if_neg hlt]
        have hgt : l < k := Std.lt_of_le_of_ne (Std.not_lt.mp hlt) (Ne.symm hkl)
        refine ⟨fun q hq => ?_, ih h.tail⟩
        -- a key of the altered rest is either the new one or an old one
        have hmem : q.1 ∈ keys (alter k f m) := List.mem_map_of_mem hq
        rcases (mem_keys_alter k q.1 f h.tail).mp hmem with he | hm
        · rw [he]
          exact hgt
        · exact h.head_lt hm

/-! ## The map of a list of pairs -/

theorem sorted_insert (k : κ) (a : α) {m : List (κ × α)} (h : Sorted m) : Sorted (insert k a m) :=
  sorted_alter k _ h

theorem get?_insert (k k' : κ) (a : α) {m : List (κ × α)} (h : Sorted m) :
    get? k' (insert k a m) = if k' = k then some a else get? k' m :=
  get?_alter k k' _ h

theorem sorted_foldl_insert (l : List (κ × α)) {m : List (κ × α)} (h : Sorted m) :
    Sorted (l.foldl (fun m p => insert p.1 p.2 m) m) := by
  induction l generalizing m with
  | nil => exact h
  | cons p l ih => exact ih (sorted_insert p.1 p.2 h)

theorem sorted_ofList (l : List (κ × α)) : Sorted (ofList l) :=
  sorted_foldl_insert l (m := []) trivial

theorem get?_foldl_insert (k : κ) (l : List (κ × α)) {m : List (κ × α)} (h : Sorted m) :
    get? k (l.foldl (fun m p => insert p.1 p.2 m) m) = (get? k l.reverse).or (get? k m) := by
  induction l generalizing m with
  | nil => rfl
  | cons p l ih =>
    rw [List.foldl_cons, ih (sorted_insert p.1 p.2 h), List.reverse_cons, get?_append,
      get?_insert _ _ _ h, get?_cons, get?_nil]
    cases get? k l.reverse with
    | some a => rfl
    | none => split <;> rfl

/-- Of several pairs with one key the last one counts. -/
theorem get?_ofList (k : κ) (l : List (κ × α)) : get? k (ofList l) = get? k l.reverse := by
  have hnil : Sorted ([] : List (κ × α)) := trivial
  rw [ofList, get?_foldl_insert k l hnil, get?_nil, Option.or_none]

omit [DecidableEq κ] [Std.IsLinearOrder κ] [DecidableLT κ] in
theorem Sorted.nodup_keys {m : List (κ × α)} (h : Sorted m) : (keys m).Nodup :=
  h.pairwise_keys.imp fun hlt heq => Std.ne_of_lt hlt heq

omit [DecidableEq κ] [DecidableLT κ] in
theorem Sorted.eq_of_perm {m m' : List (κ × α)} (hm : Sorted m) (hm' : Sorted m')
    (h : m.Perm m') : m = m' := by
  have hpairwise {m : List (κ × α)} (hm : Sorted m) : m.Pairwise fun p q => p.1 < q.1 :=
    List.pairwise_map.mp hm.pairwise_keys
  refine h.eq_of_pairwise ?_ (hpairwise hm) (hpairwise hm')
  intro p q _ _ hpq hqp
  exact absurd (Std.lt_trans hpq hqp) Std.lt_irrefl

omit [DecidableLT κ] in
/-- A map is determined by what it holds at each key. -/
theorem Sorted.ext_get? {m m' : List (κ × α)} (hm : Sorted m) (hm' : Sorted m')
    (h : ∀ k, get? k m = get? k m') : m = m' := by
  have hmem : ∀ p, p ∈ m ↔ p ∈ m' := by
    rintro ⟨k, a⟩
    rw [← get?_eq_some_iff hm.nodup_keys, h k, get?_eq_some_iff hm'.nodup_keys]
  apply hm.eq_of_perm hm'
  apply (List.perm_ext_iff_of_nodup _ _).mpr hmem
  · exact List.Nodup.of_map Prod.fst hm.nodup_keys
  · exact List.Nodup.of_map Prod.fst hm'.nodup_keys

/-- Without repeated keys, making a map of pairs only puts them in order. -/
theorem perm_ofList {l : List (κ × α)} (h : (keys l).Nodup) : (ofList l).Perm l := by
  have hreverse : (keys l.reverse).Nodup := ((List.reverse_perm l).map Prod.fst).nodup_iff.mpr h
  have hsorted := sorted_ofList l
  refine (List.perm_ext_iff_of_nodup ?_ ?_).mpr ?_
  · exact List.Nodup.of_map Prod.fst hsorted.nodup_keys
  · exact List.Nodup.of_map Prod.fst h
  · rintro ⟨k, a⟩
    rw [← get?_eq_some_iff hsorted.nodup_keys, get?_ofList, get?_eq_some_iff hreverse,
      List.mem_reverse]

/-- A list with the pairs of a map in any order makes that map. -/
theorem ofList_of_perm {l m : List (κ × α)} (hm : Sorted m) (h : l.Perm m) : ofList l = m := by
  have hnodup : (keys l).Nodup := (h.map Prod.fst).nodup_iff.mpr hm.nodup_keys
  exact (sorted_ofList l).eq_of_perm hm ((perm_ofList hnodup).trans h)

end Ensemble.Ordered

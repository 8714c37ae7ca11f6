import Ensemble.Disk.Transcripts
import Mathlib.Data.List.Basic
import Mathlib.Data.List.TakeWhile

/-!
File names and what they say about transcripts.  A file is a transcript if its name is that of an
agent with the extension behind it, and since no name on a disk has a slash, the qualified name of
an agent tells its namespace and its name.
-/

namespace Ensemble

namespace Disk

theorem splitName_append {stem extension : List Char} (hstem : stem ≠ [])
    (hextension : '.' ∉ extension) :
    splitName (stem ++ '.' :: extension) = (stem, some extension) := by
  have hall : ∀ c ∈ extension.reverse, decide (c ≠ '.') = true := by
    intro c hc
    rw [decide_eq_true_eq]
    rintro rfl
    exact hextension (List.mem_reverse.mp hc)
  have hreverse : (stem ++ '.' :: extension).reverse =
      extension.reverse ++ '.' :: stem.reverse := by
    simp
  obtain ⟨c, cs, hcs⟩ := List.exists_cons_of_ne_nil (mt List.reverse_eq_nil_iff.mp hstem)
  have hstem' : stem = (c :: cs).reverse := by rw [← hcs, List.reverse_reverse]
  unfold splitName
  simp only [hreverse, List.takeWhile_append_of_pos hall, List.dropWhile_append_of_pos hall]
  simp [hstem']

/-- A name has an extension if there is a point in it that is not its first character. -/
theorem splitName_eq_some_iff {name stem extension : List Char} :
    splitName name = (stem, some extension) ↔
      name = stem ++ '.' :: extension ∧ '.' ∉ extension ∧ stem ≠ [] := by
  constructor
  · intro h
    have hsplit : name.reverse.takeWhile (· ≠ '.') ++ name.reverse.dropWhile (· ≠ '.') =
        name.reverse := List.takeWhile_append_dropWhile
    have hextension : '.' ∉ (name.reverse.takeWhile (· ≠ '.')).reverse := by
      intro hmem
      simpa using List.mem_takeWhile_imp (List.mem_reverse.mp hmem)
    unfold splitName at h
    dsimp only at h
    cases hrest : name.reverse.dropWhile (· ≠ '.') with
    | nil =>
      rw [hrest] at h
      cases h
    | cons c cs =>
      -- the rest begins with the last point
      have hpoint := List.head?_dropWhile_not (fun c => decide (c ≠ '.')) name.reverse
      rw [hrest] at h hsplit hpoint
      simp only [List.head?_cons, decide_not, Bool.not_eq_false', decide_eq_true_eq] at hpoint
      cases cs with
      | nil => cases h
      | cons d ds =>
        obtain ⟨hstem, hext⟩ := Prod.mk.inj h
        rw [← Option.some.inj hext, ← hstem]
        refine ⟨?_, hextension, by simp⟩
        generalize name.reverse.takeWhile (· ≠ '.') = before at hsplit
        rw [← name.reverse_reverse, ← hsplit, hpoint]
        simp
  · rintro ⟨rfl, hextension, hstem⟩
    exact splitName_append hstem hextension

/-- A transcript has the name of its agent with the extension behind it. -/
theorem transcriptName?_eq_some_iff {file name : String} :
    transcriptName? file = some name ↔ file = name ++ ".ndjson" ∧ name ≠ "" := by
  have hsplit : transcriptName? file = some name ↔
      splitName file.toList = (name.toList, some ['n', 'd', 'j', 's', 'o', 'n']) := by
    unfold transcriptName?
    split
    · next stem h => simp [h, ← String.toList_inj]
    · next h =>
      refine iff_of_false nofun fun heq => h _ heq
  rw [hsplit, splitName_eq_some_iff, ← String.toList_inj, String.toList_append,
    ne_eq (name : String), ← String.toList_eq_nil_iff]
  exact ⟨fun h => ⟨h.1, h.2.2⟩, fun h => ⟨h.1, by decide, h.2⟩⟩

/-- What can be the name of something on a disk. -/
def IsName (name : String) : Prop :=
  name ≠ "" ∧ '/' ∉ name.toList

end Disk

open Disk in
/-- No two agents whose namespaces and names are names on a disk have one qualified name. -/
theorem AgentReference.qualifiedName_inj {scope scope' : Option String} {name name' : String}
    (hscope : ∀ s ∈ scope, IsName s) (hscope' : ∀ s ∈ scope', IsName s) (hname : '/' ∉ name.toList)
    (hname' : '/' ∉ name'.toList)
    (h : qualifiedName { name, scope } = qualifiedName { name := name', scope := scope' }) :
    scope = scope' ∧ name = name' := by
  have hplain {s n n' : String} (hn : '/' ∉ n.toList) : n ≠ s ++ "/" ++ n' := by
    rintro rfl
    simp at hn
  have hqualified {s : String} (hs : IsName s) (n : String) :
      qualifiedName { name := n, scope := some s } = s ++ "/" ++ n := by
    simp [qualifiedName, hs.1]
  cases scope with
  | none =>
    cases scope' with
    | none => exact ⟨rfl, h⟩
    | some s' =>
      rw [hqualified (hscope' s' rfl)] at h
      exact absurd h (hplain hname)
  | some s =>
    rw [hqualified (hscope s rfl)] at h
    cases scope' with
    | none => exact absurd h.symm (hplain hname')
    | some s' =>
      rw [hqualified (hscope' s' rfl)] at h
      -- the only slash is the one between namespace and name
      have hchars : s.toList ++ '/' :: name.toList = s'.toList ++ '/' :: name'.toList := by
        simpa [← String.toList_inj] using h
      obtain ⟨hs, -, hn⟩ := (List.append_cons_inj_of_notMem (hscope s rfl).2 hname).mp hchars
      exact ⟨congrArg some (String.toList_inj.mp hs), String.toList_inj.mp hn⟩

end Ensemble

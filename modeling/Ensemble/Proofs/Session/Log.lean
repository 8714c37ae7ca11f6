import Ensemble.Session.Basic
import Mathlib.Data.List.Range

/-!
Logs of sessions.  Adding drafts makes a log longer by exactly these drafts, and its events stay
numbered from 1 without a gap.
-/

namespace Ensemble.Session

/-- What has been added to a session, without numbers and times. -/
def drafts (s : Session) : List EventDraft :=
  s.events.map Event.draft

/-- The events are numbered 1, 2 and so on without a gap. -/
def Numbered (s : Session) : Prop :=
  s.events.map Event.sequence = List.range' 1 s.length

theorem appendAll_cons (s : Session) (d : Nat × EventDraft) (ds : List (Nat × EventDraft)) :
    s.appendAll (d :: ds) = (s.append d.1 d.2).appendAll ds := rfl

theorem appendAll_append (s : Session) (ds ds' : List (Nat × EventDraft)) :
    s.appendAll (ds ++ ds') = (s.appendAll ds).appendAll ds' :=
  List.foldl_append

@[simp] theorem id_append (s : Session) (now : Nat) (d : EventDraft) : (s.append now d).id = s.id :=
  rfl

@[simp] theorem drafts_append (s : Session) (now : Nat) (d : EventDraft) :
    (s.append now d).drafts = s.drafts ++ [d] := by
  rw [drafts, append, List.map_append]
  rfl

theorem numbered_empty (id : String) : Numbered { id } := rfl

theorem Numbered.append {s : Session} (h : s.Numbered) (now : Nat) (d : EventDraft) :
    (s.append now d).Numbered := by
  have hlen : (s.append now d).length = s.length + 1 := by
    rw [length, Session.append, List.length_append, List.length_singleton, length]
  rw [Numbered, hlen, List.range'_concat, Session.append, List.map_append, h]
  simp [stamp, Nat.add_comm]

@[simp] theorem id_appendAll (s : Session) (ds : List (Nat × EventDraft)) :
    (s.appendAll ds).id = s.id := by
  induction ds generalizing s with
  | nil => rfl
  | cons d ds ih => rw [appendAll_cons, ih, id_append]

@[simp] theorem drafts_appendAll (s : Session) (ds : List (Nat × EventDraft)) :
    (s.appendAll ds).drafts = s.drafts ++ ds.map Prod.snd := by
  induction ds generalizing s with
  | nil => exact (List.append_nil _).symm
  | cons d ds ih =>
    rw [appendAll_cons, ih, drafts_append, List.append_assoc, List.map_cons, List.singleton_append]

theorem Numbered.appendAll {s : Session} (h : s.Numbered) (ds : List (Nat × EventDraft)) :
    (s.appendAll ds).Numbered := by
  induction ds generalizing s with
  | nil => exact h
  | cons d ds ih => exact ih (h.append d.1 d.2)

theorem events_prefix_appendAll (s : Session) (ds : List (Nat × EventDraft)) :
    s.events <+: (s.appendAll ds).events := by
  induction ds generalizing s with
  | nil => exact List.prefix_rfl
  | cons d ds ih => exact (List.prefix_append _ _).trans (ih (s.append d.1 d.2))

/-- What has been added to a session carries the tick at which it was added. -/
theorem mem_events_appendAll {s : Session} {ds : List (Nat × EventDraft)} {e : Event}
    (h : e ∈ (s.appendAll ds).events) :
    e ∈ s.events ∨ ∃ d ∈ ds, e.timestamp = .ofTick d.1 ∧ e.draft = d.2 := by
  induction ds generalizing s with
  | nil => exact Or.inl h
  | cons d ds ih =>
    rcases ih h with hbefore | ⟨d', hd', hstamp⟩
    · rcases List.mem_append.mp hbefore with hold | hnew
      · exact Or.inl hold
      · rw [List.mem_singleton.mp hnew]
        exact Or.inr ⟨d, List.mem_cons_self, rfl, rfl⟩
    · exact Or.inr ⟨d', List.mem_cons_of_mem d hd', hstamp⟩

end Ensemble.Session

import Ensemble.Proofs.Call.Opening
import Ensemble.Proofs.Run.Standing

/-!
The feed of a run.  It holds the events of all sessions in the order in which they were added, so
the events of one session are found in it as they stand there; and it grows by at most one report
of a status at a time.
-/

namespace Ensemble

/-- The drafts of one session, out of the events of several ones. -/
def RunEvent.draftsOf (id : String) (es : List RunEvent) : List EventDraft :=
  (es.filter fun e => e.sessionId = id).map fun e => e.event.draft

/-- The events of one session, out of the events of several ones. -/
def RunEvent.eventsOf (id : String) (es : List RunEvent) : List Event :=
  (es.filter fun e => e.sessionId = id).map RunEvent.event

theorem RunEvent.draftsOf_eq_map (id : String) (es : List RunEvent) :
    draftsOf id es = (eventsOf id es).map Event.draft := by
  rw [draftsOf, eventsOf, List.map_map]
  rfl

theorem RunEvent.eventsOf_append (id : String) (es more : List RunEvent) :
    eventsOf id (es ++ more) = eventsOf id es ++ eventsOf id more := by
  rw [eventsOf, List.filter_append, List.map_append, eventsOf, eventsOf]

theorem RunEvent.draftsOf_append (id : String) (es more : List RunEvent) :
    draftsOf id (es ++ more) = draftsOf id es ++ draftsOf id more := by
  simp only [draftsOf_eq_map, eventsOf_append, List.map_append]

theorem RunEvent.eventsOf_events (id : String) (s : Session) (es : List Event) :
    eventsOf id (es.map fun e => ⟨s.id, e⟩) = if s.id = id then es else [] := by
  unfold eventsOf
  split
  · next h => simp [List.filter_map, Function.comp_def, h]
  · next h => simp [List.filter_map, Function.comp_def, h]

namespace Run

/-- What never changes of a branch: the agent that its reference names and the name of its
session. -/
def Branch.origin (b : Branch) : Except Registry.NotFound Agent × String :=
  (b.agent, b.session.id)

variable {ctx : Context} {now : Nat} {b b' : Branch}

theorem Branch.Moves.origin_eq (h : b.Moves ctx now b') : b'.origin = b.origin := by
  cases h <;> rfl

/-- What a move adds carries the tick of the move. -/
theorem Branch.Moves.events_eq (h : b.Moves ctx now b') :
    ∃ new, b'.session.events = b.session.events ++ new ∧
      ∀ e ∈ new, e.timestamp = .ofTick now := by
  cases h with
  | failed =>
    refine ⟨_, List.append_assoc _ _ _, fun e he => ?_⟩
    rcases List.mem_pair.mp he with rfl | rfl <;> rfl
  | added =>
    refine ⟨_, rfl, fun e he => ?_⟩
    rw [List.mem_singleton.mp he]
    rfl
  | _ => exact ⟨[], (List.append_nil _).symm, fun _ he => (List.not_mem_nil he).elim⟩

namespace Fleet

variable {f : Fleet} {position : Nat}

theorem events_update {new : List Event} (hb : f.branches[position]? = some b)
    (hnew : b'.session.events = b.session.events ++ new) :
    (f.update position b').events = f.events ++ new.map fun e => ⟨b'.session.id, e⟩ := by
  rw [update, hb, Option.map_some, Option.getD_some, Session.length, hnew, List.drop_left]

/-- The feed up to some event either is the whole feed after some action, or goes one event further
that reports no status. -/
theorem prefix_update {es : List RunEvent} (hb : f.branches[position]? = some b)
    (hmove : b.Moves ctx now b') (h : es <+: (f.update position b').events) :
    es <+: f.events ∨ es = (f.update position b').events ∨
      ∃ e : RunEvent, es = f.events ++ [e] ∧ e.event.draft.status? = none := by
  have hquiet (hsame : b'.session.events = b.session.events) : es <+: f.events := by
    rw [events_update hb (hsame.trans (List.append_nil _).symm), List.map_nil,
      List.append_nil] at h
    exact h
  cases hmove with
  | @failed e =>
    -- the error is shown before the report that the branch has failed
    have hnew : (b.fail now e).session.events = b.session.events ++ [_, _] :=
      List.append_assoc _ [_] [_]
    rw [events_update hb hnew, List.map_cons, List.map_singleton, List.append_cons,
      List.prefix_concat_iff, List.prefix_concat_iff] at h
    rcases h with h | h | h
    · rw [events_update hb hnew, List.map_cons, List.map_singleton, List.append_cons]
      exact Or.inr (Or.inl h)
    · exact Or.inr (Or.inr ⟨_, h, rfl⟩)
    · exact Or.inl h
  | @added tick d rest close hphase =>
    have hnew : (b.session.append now d).events = b.session.events ++ [b.session.stamp now d] := rfl
    rw [events_update hb hnew, List.map_singleton, List.prefix_concat_iff] at h
    rcases h with h | h
    · rw [events_update hb hnew, List.map_singleton]
      exact Or.inr (Or.inl h)
    · exact Or.inl h
  | refused | queued | granted | left | began | closed | crashed => exact Or.inl (hquiet rfl)

theorem place_inj {i j : Nat}
    (h : "session-" ++ toString (i + 1) = "session-" ++ toString (j + 1)) : i = j := by
  rw [String.append_right_inj, Nat.toString_eq_ofList_toDigits, Nat.toString_eq_ofList_toDigits,
    String.ofList_inj] at h
  -- the digits of a number give it back
  have hvalue := congrArg (Nat.ofDigitChars 10 · 0) h
  rw [Nat.ofDigitChars_ten_toDigits, Nat.ofDigitChars_ten_toDigits] at hvalue
  exact Nat.succ_injective hvalue

/-- A fleet whose sessions are named in order, and whose feed holds what stands in each of them and
nothing else. -/
structure Fed (f : Fleet) : Prop where
  sessions : ∀ i b, f.branches[i]? = some b → b.session.id = "session-" ++ toString (i + 1) ∧
    RunEvent.eventsOf b.session.id f.events = b.session.events
  owned : ∀ e ∈ f.events, ∃ b ∈ f.branches, b.session.id = e.sessionId

theorem fed_start (registry : Registry) (workers : Nat) (references : List AgentReference) :
    (start registry workers references).Fed where
  sessions := by
    intro i b hb
    rw [start, List.getElem?_mapIdx, Option.map_eq_some_iff] at hb
    obtain ⟨r, -, rfl⟩ := hb
    exact ⟨rfl, rfl⟩
  owned := fun e he => by cases he

theorem Fed.update (h : f.Fed) (hb : f.branches[position]? = some b) (hmove : b.Moves ctx now b') :
    (f.update position b').Fed := by
  obtain ⟨hplace, hevents⟩ := h.sessions position b hb
  obtain ⟨new, hnew, -⟩ := hmove.events_eq
  have hid : b'.session.id = b.session.id := congrArg Prod.snd hmove.origin_eq
  obtain ⟨hlt, rfl⟩ := List.getElem?_eq_some_iff.mp hb
  have hmem : b' ∈ (f.update position b').branches := List.mem_set hlt b'
  constructor
  case sessions =>
    intro i x hx
    rw [events_update hb hnew, RunEvent.eventsOf_append, RunEvent.eventsOf_events]
    rw [Fleet.update, List.getElem?_set] at hx
    by_cases hi : position = i
    · subst hi
      rw [if_pos rfl, if_pos hlt] at hx
      cases hx
      refine ⟨hid.trans hplace, ?_⟩
      rw [if_pos rfl, hid, hevents, hnew]
    · -- what is new has been added to a session of another name
      rw [if_neg hi] at hx
      obtain ⟨hplace', hevents'⟩ := h.sessions i x hx
      refine ⟨hplace', ?_⟩
      have hne : b'.session.id ≠ x.session.id := by
        rw [hid, hplace, hplace']
        exact fun heq => hi (place_inj heq)
      rw [if_neg hne, List.append_nil, hevents']
  case owned =>
    intro e he
    rw [events_update hb hnew, List.mem_append] at he
    rcases he with he | he
    · obtain ⟨x, hx, hxid⟩ := h.owned e he
      obtain ⟨i, hi, rfl⟩ := List.getElem_of_mem hx
      by_cases hposition : position = i
      · subst hposition
        exact ⟨b', hmem, hid.trans hxid⟩
      · refine ⟨f.branches[i], ?_, hxid⟩
        refine List.mem_of_getElem? (i := i) ?_
        rw [Fleet.update, List.getElem?_set_ne hposition, List.getElem?_eq_getElem hi]
    · obtain ⟨_, -, rfl⟩ := List.mem_map.mp he
      exact ⟨b', hmem, rfl⟩

namespace Reaches

variable {registry : Registry} {workers : Nat} {references : List AgentReference}

theorem origin_eq {g : Fleet} (h : Reaches ctx f g) (horderly : f.Orderly 0) :
    g.branches.map Branch.origin = f.branches.map Branch.origin := by
  refine h.invariant (P := fun g => g.branches.map Branch.origin = f.branches.map Branch.origin)
    (fun _ _ _ h => h) (fun _ _ h => h) ?_ horderly rfl
  intro g position b b' hg hb hmove
  obtain ⟨hlt, rfl⟩ := List.getElem?_eq_some_iff.mp hb
  rw [update, List.map_set, hmove.origin_eq, ← hg]
  refine List.ext_getElem? fun i => ?_
  rw [List.getElem?_set]
  split
  · next hi =>
    subst hi
    simp [hlt]
  · rfl

/-- The sessions are named in the order of their branches. -/
theorem place_eq (h : Reaches ctx (start registry workers references) f) {i : Nat}
    (hb : f.branches[i]? = some b) : b.session.id = "session-" ++ toString (i + 1) := by
  obtain ⟨r, hr⟩ := h.exists_reference hb
  exact (h.isFor hr hb).place

/-- An invocation names the session of its own branch. -/
theorem eq_of_sessionId (h : Reaches ctx (start registry workers references) f) {b b' : Branch}
    (hb : b ∈ f.branches) (hb' : b' ∈ f.branches)
    (hid : b.invocation.sessionId = b'.session.id) : b = b' := by
  obtain ⟨i, hi⟩ := List.getElem?_of_mem hb
  obtain ⟨j, hj⟩ := List.getElem?_of_mem hb'
  obtain ⟨r, hr⟩ := h.exists_reference hi
  rw [(h.isFor hr hi).session, h.place_eq hi, h.place_eq hj] at hid
  cases place_inj hid
  exact Option.some.inj (hi.symm.trans hj)

theorem nodup_ids (h : Reaches ctx (start registry workers references) f) :
    (f.branches.map fun b => b.session.id).Nodup := by
  rw [List.nodup_iff_injective_getElem]
  intro i j hij
  simp only [List.getElem_map] at hij
  rw [h.place_eq (List.getElem?_eq_getElem _), h.place_eq (List.getElem?_eq_getElem _)] at hij
  exact Fin.ext (place_inj hij)

/-- The feed holds the events of every session as they stand there. -/
theorem fed (h : Reaches ctx (start registry workers references) f) : f.Fed :=
  h.invariant (P := Fed) (fun _ _ _ hf => ⟨hf.sessions, hf.owned⟩)
    (fun _ _ hf => ⟨hf.sessions, hf.owned⟩) (fun _ _ _ _ hf hb hmove => hf.update hb hmove)
    (orderly_start registry workers references) (fed_start registry workers references)

theorem draftsOf_eq (h : Reaches ctx (start registry workers references) f) {i : Nat}
    (hb : f.branches[i]? = some b) :
    RunEvent.draftsOf b.session.id f.events = b.session.drafts := by
  rw [RunEvent.draftsOf_eq_map, (h.fed.sessions i b hb).2, Session.drafts]

end Reaches

end Fleet

end Run

end Ensemble

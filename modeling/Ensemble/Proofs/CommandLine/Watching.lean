import Ensemble.CommandLine.Basic
import Ensemble.Proofs.Run.Instant
import Ensemble.Proofs.Session.Journal

/-!
What is printed of a run.  Whatever the live feed delivers of its events, and whenever the one who
watches it turns from the feed to the logs, every event is printed once, and those that the feed has
delivered come in the order in which they were added.
-/

namespace Ensemble

/-! ## Printing -/

namespace CommandLine

/-- What the feed delivers while it is watched. -/
def heard : List Wake → List RunEvent
  | [] => []
  | .received e :: rest => e :: heard rest
  | .lagged _ :: rest => heard rest
  | .feedClosed :: _ => []
  | .status s :: rest => if s.isTerminal then [] else heard rest
  | .statusGone :: _ => []
  | .interrupted :: rest => heard rest

/-- What the feed still delivers when the run is over. -/
def found : List Poll → List RunEvent
  | [] => []
  | .received e :: rest => e :: found rest
  | .lagged _ :: rest => found rest
  | .empty :: _ => []
  | .closed :: _ => []

def delivered (wakes : List Wake) (polls : List Poll) : List RunEvent :=
  heard wakes ++ found polls

namespace Printer

variable (p : Printer)

variable {p} {es : List RunEvent}

end Printer

end CommandLine

/-! ## Records -/

namespace Run

/-- A record whose sessions are told apart by their ids and number their events. -/
structure Outcome.Distinct (o : Outcome) : Prop where
  readable : o.Readable
  numbered : ∀ s ∈ o.sessions, s.Numbered
  ids : (o.sessions.map Session.id).Nodup

namespace Outcome.Distinct

variable {o : Outcome} {r : Run}

/-- The events of every session come in the order of their numbers. -/
theorem pairwise_events (h : o.Distinct) : o.events.Pairwise fun a b =>
    a.sessionId = b.sessionId → a.event.sequence < b.event.sequence := by
  rw [List.pairwise_iff_getElem]
  intro i j hi hj hij hsame
  obtain ⟨s, hs, hid, -⟩ := h.readable.owned o.events[i] (List.getElem_mem hi)
  have hsequences : ((o.events.filter fun e => e.sessionId = s.id).map
      fun e => e.event.sequence).Pairwise (· < ·) := by
    have hnumbers := h.numbered s hs
    rw [Session.Numbered, ← h.readable.complete s hs, RunEvent.eventsOf, List.map_map] at hnumbers
    have hsorted : (List.range' 1 s.length).Pairwise (· < ·) := List.pairwise_lt_range'
    rw [← hnumbers] at hsorted
    exact hsorted
  rw [List.pairwise_map, List.pairwise_filter, List.pairwise_iff_getElem] at hsequences
  exact hsequences i j hi hj hij (decide_eq_true hid.symm)
    (decide_eq_true (hsame.symm.trans hid.symm))

theorem nodup_keys (h : o.Distinct) : (o.events.map RunEvent.key).Nodup := by
  refine List.pairwise_map.mpr (h.pairwise_events.imp fun hlt heq => ?_)
  obtain ⟨hid, hsequence⟩ := Prod.mk.inj heq
  exact absurd hsequence (Nat.ne_of_lt (hlt hid))

end Outcome.Distinct

end Run

/-! ## The lines of a run -/

namespace CommandLine

theorem instant_of_loadAgent {path : String} {d : Disk} {a : Agent}
    (h : Disk.loadAgent path d = .ok a) : a.Instant := by
  unfold Disk.loadAgent at h
  split at h
  · cases h
  · split at h
    · cases h
    · next r hr =>
      cases h
      unfold Replay.ofTranscript at hr
      split at hr
      · cases hr
        exact ⟨_, rfl, rfl, nofun⟩
      · cases hr

/-- All agents of a registry answer at once. -/
def AllInstant (g : Registry) : Prop :=
  ∀ p ∈ g.agents, p.2.Instant

section Load

variable {path scope : String} {g g' : Registry} {entries : List (String × Disk)}

theorem AllInstant.loadFile {name : String} {scope : Option String} {d : Disk} (h : AllInstant g)
    (hload : Disk.loadFile path scope name d g = .ok g') : AllInstant g' := by
  unfold Disk.loadFile at hload
  split at hload
  · cases hload
    exact h
  · split at hload
    · cases hload
    · next a ha =>
      cases hload
      intro p hp
      rcases Ordered.mem_of_mem_insert hp with rfl | hp
      · exact instant_of_loadAgent ha
      · exact h p hp

theorem AllInstant.loadBelow (h : AllInstant g)
    (hload : Disk.loadBelow path scope g entries = .ok g') : AllInstant g' := by
  induction entries generalizing g with
  | nil =>
    cases hload
    exact h
  | cons entry rest ih =>
    rw [Disk.loadBelow] at hload
    split at hload
    · exact ih h hload
    · split at hload
      · cases hload
      · next hfile => exact ih (h.loadFile hfile) hload

theorem AllInstant.loadEntry {name : String} {d : Disk} (h : AllInstant g)
    (hload : Disk.loadEntry path name d g = .ok g') : AllInstant g' := by
  unfold Disk.loadEntry at hload
  split at hload
  · split at hload
    · cases hload
    · exact h.loadBelow hload
  · exact h.loadFile hload

theorem AllInstant.loadEntries (h : AllInstant g)
    (hload : Disk.loadEntries path g entries = .ok g') : AllInstant g' := by
  induction entries generalizing g with
  | nil =>
    cases hload
    exact h
  | cons entry rest ih =>
    rw [Disk.loadEntries] at hload
    split at hload
    · cases hload
    · next hentry => exact ih (h.loadEntry hentry) hload

end Load

theorem AllInstant.resolve {g : Registry} (h : AllInstant g) {r : AgentReference} {a : Agent}
    (ha : g.resolve r = .ok a) : a.Instant := by
  unfold Registry.resolve at ha
  split at ha
  · next hget =>
    cases ha
    exact h _ (Ordered.mem_of_get? hget)
  · cases ha

/-! ## The command -/

end CommandLine

end Ensemble

import Ensemble.Call
import Ensemble.Proofs.Clock

/-!
When and why a call ends.  A call that was interrupted takes its status from what interrupts at that
very tick, and nothing of a call happens after the first signal.
-/

namespace Ensemble

namespace Signals

variable {signals : Signals}

theorem firstBy?_eq_some {due tick : Nat} {why : Interrupt}
    (h : signals.firstBy? due = some (tick, why)) :
    signals.first? = some tick ∧ signals.interrupt? tick = some why := by
  unfold firstBy? at h
  cases hfirst : signals.first? with
  | none =>
    rw [hfirst] at h
    cases h
  | some t =>
    rw [hfirst] at h
    dsimp only at h
    split at h
    · obtain ⟨i, hi, heq⟩ := Option.map_eq_some_iff.mp h
      cases heq
      exact ⟨rfl, hi⟩
    · cases h

theorem le_of_firstBy?_eq_some {due tick : Nat} {why : Interrupt}
    (h : signals.firstBy? due = some (tick, why)) : tick ≤ due := by
  rw [firstBy?, (firstBy?_eq_some h).1] at h
  dsimp only at h
  split at h
  · next hle => exact hle
  · cases h

theorem lt_of_firstBy?_eq_none {due t : Nat} (h : signals.firstBy? due = none)
    (hfirst : signals.first? = some t) : due < t := by
  -- a first signal that has come by then would have been returned
  unfold firstBy? at h
  rw [hfirst] at h
  dsimp only at h
  split at h
  · rw [Option.map_eq_none_iff] at h
    have hsome := interrupt?_isSome hfirst
    rw [h] at hsome
    cases hsome
  · omega

end Signals

/-! ## The cause of an ending -/

theorem Tail.ending_interrupted {tail : Tail} {signals : Signals} {now tick : Nat}
    {why : Interrupt} (h : tail.ending signals now = .interrupted tick why) :
    signals.interrupt? tick = some why := by
  unfold ending at h
  split at h
  · cases h
  · cases h
  · split at h
    · split at h
      · next hwhy =>
        cases h
        exact hwhy
      · cases h
    · cases h

theorem Replay.listen_interrupted {r : Replay} {signals : Signals} {now tick : Nat}
    {why : Interrupt} {ds : List Delta}
    (h : (r.listen signals now ds).ending = .interrupted tick why) :
    signals.interrupt? tick = some why := by
  induction ds generalizing now with
  | nil => exact Tail.ending_interrupted h
  | cons d ds ih =>
    rw [listen] at h
    cases hfirst : signals.firstBy? (now + r.delay) with
    | some first =>
      simp only [hfirst, HearingEnd.interrupted.injEq] at h
      obtain ⟨rfl, rfl⟩ := h
      exact (Signals.firstBy?_eq_some hfirst).2
    | none =>
      simp only [hfirst] at h
      exact ih h

theorem Call.statusOf_cases (final : EventDraft) :
    statusOf final = .succeeded ∨ statusOf final = .failed := by
  unfold statusOf
  split
  · exact Or.inr rfl
  · exact Or.inl rfl

theorem Call.close_traceOf_cause {author id : String} {now tick : Nat} {h : Hearing}
    {called : Bool} {s : Status} {r : Option Response}
    (hclose : (traceOf author id now h called).close = .closed tick s r) :
    (s = .succeeded ∨ s = .failed) ∨
      ∃ why, s = why.status ∧ h.ending = .interrupted tick why := by
  obtain ⟨arrived, e⟩ := h
  cases e with
  | ended at_ how =>
    simp only [traceOf, ending, closing, Close.closed.injEq] at hclose
    obtain ⟨rfl, rfl, rfl⟩ := hclose
    exact Or.inl (statusOf_cases _)
  | interrupted at_ why =>
    simp only [traceOf, ending, closing, Close.closed.injEq] at hclose
    obtain ⟨rfl, rfl, rfl⟩ := hclose
    exact Or.inr ⟨why, rfl, rfl⟩
  | never => cases hclose

/-- A call succeeds, fails, or has the status of what interrupts when it ends. -/
theorem Call.close_cause {agent : Agent} {signals : Signals} {stream : Bool} {author id : String}
    {now tick : Nat} {s : Status} {r : Option Response}
    (hclose : (trace agent signals stream author id now).close = .closed tick s r) :
    (s = .succeeded ∨ s = .failed) ∨
      ∃ why, s = why.status ∧ signals.interrupt? tick = some why := by
  unfold trace at hclose
  cases hnow : signals.interrupt? now with
  | some why =>
    rw [hnow] at hclose
    refine (close_traceOf_cause hclose).imp_right ?_
    rintro ⟨why', rfl, hend⟩
    cases hend
    exact ⟨why, rfl, hnow⟩
  | none =>
    rw [hnow] at hclose
    cases agent with
    | crashing => cases hclose
    | replay replay =>
      refine (close_traceOf_cause hclose).imp_right ?_
      rintro ⟨why, rfl, hend⟩
      refine ⟨why, rfl, ?_⟩
      unfold Replay.call at hend
      cases hrejection : replay.rejection with
      | some e => simp only [hrejection, reduceCtorEq] at hend
      | none =>
        simp only [hrejection] at hend
        exact Replay.listen_interrupted hend

theorem Call.isTerminal_of_close {agent : Agent} {signals : Signals} {stream : Bool}
    {author id : String} {now tick : Nat} {s : Status} {r : Option Response}
    (hclose : (trace agent signals stream author id now).close = .closed tick s r) :
    s.isTerminal = true := by
  rcases close_cause hclose with (rfl | rfl) | ⟨why, rfl, -⟩
  · rfl
  · rfl
  · exact why.isTerminal_status

/-! ## Nothing after the first signal -/

def HearingEnd.tick? : HearingEnd → Option Nat
  | .ended tick _ => some tick
  | .interrupted tick _ => some tick
  | .never => none

def Close.tick? : Close → Option Nat
  | .closed tick _ _ => some tick
  | .crashed tick => some tick
  | .never => none

/-- All that is heard, the end included, is heard by a tick. -/
def Hearing.By (t : Nat) (h : Hearing) : Prop :=
  (∀ a ∈ h.arrived, a.1 ≤ t) ∧ ∀ tick, h.ending.tick? = some tick → tick ≤ t

/-- All that a call does, its close included, is done by a tick. -/
def Trace.By (t : Nat) (c : Trace) : Prop :=
  (∀ d ∈ c.drafts, d.1 ≤ t) ∧ ∀ tick, c.close.tick? = some tick → tick ≤ t

section By

variable {signals : Signals} {t now : Nat}

theorem Tail.ending_by (tail : Tail) (hfirst : signals.first? = some t) (hnow : now ≤ t) :
    ∀ tick, (tail.ending signals now).tick? = some tick → tick ≤ t := by
  intro tick h
  obtain ⟨why, hwhy⟩ := Option.isSome_iff_exists.mp (Signals.interrupt?_isSome hfirst)
  cases tail with
  | complete =>
    cases h
    exact hnow
  | transportError message =>
    cases h
    exact hnow
  | hang =>
    simp only [ending, hfirst, hwhy, HearingEnd.tick?, Option.some.injEq] at h
    omega

theorem Replay.listen_by (r : Replay) (ds : List Delta) (hfirst : signals.first? = some t)
    (hnow : now ≤ t) : (r.listen signals now ds).By t := by
  -- a delta that arrives does so before the first signal
  induction ds generalizing now with
  | nil => exact ⟨fun _ ha => (List.not_mem_nil ha).elim, r.tail.ending_by hfirst hnow⟩
  | cons d ds ih =>
    rw [listen]
    cases hby : signals.firstBy? (now + r.delay) with
    | some first =>
      have htick := (Signals.firstBy?_eq_some hby).1
      refine ⟨fun _ ha => (List.not_mem_nil ha).elim, ?_⟩
      intro tick h
      simp only [HearingEnd.tick?, Option.some.injEq] at h
      rw [hfirst, Option.some.injEq] at htick
      omega
    | none =>
      have hdue := Signals.lt_of_firstBy?_eq_none hby hfirst
      obtain ⟨harrived, hending⟩ := ih (Nat.le_of_lt hdue)
      refine ⟨?_, hending⟩
      intro a ha
      rcases List.mem_cons.mp ha with rfl | ha
      · exact Nat.le_of_lt hdue
      · exact harrived a ha

theorem Replay.call_by (r : Replay) (stream : Bool) (hfirst : signals.first? = some t)
    (hnow : now ≤ t) : (r.call signals stream now).By t := by
  unfold call
  cases r.rejection with
  | none => exact r.listen_by _ hfirst hnow
  | some e =>
    refine ⟨fun _ ha => (List.not_mem_nil ha).elim, ?_⟩
    intro tick h
    cases h
    exact hnow

theorem Call.traceOf_by {author id : String} {h : Hearing} {called : Bool} (hnow : now ≤ t)
    (hby : h.By t) : (traceOf author id now h called).By t := by
  obtain ⟨arrived, e⟩ := h
  obtain ⟨harrived, hending⟩ := hby
  have hpartial : ∀ d ∈ partialDrafts author arrived, d.1 ≤ t := by
    intro d hd
    obtain ⟨a, ha, hmap⟩ := List.mem_filterMap.mp hd
    obtain ⟨p, -, rfl⟩ := Option.map_eq_some_iff.mp hmap
    exact harrived a ha
  have hall {last : List (Nat × EventDraft)} (hlast : ∀ d ∈ last, d.1 ≤ t) :
      ∀ d ∈ (now, EventDraft.status author id .running) :: partialDrafts author arrived ++ last,
        d.1 ≤ t := by
    intro d hd
    rcases List.mem_append.mp hd with hd | hd
    · rcases List.mem_cons.mp hd with rfl | hd
      · exact hnow
      · exact hpartial d hd
    · exact hlast d hd
  cases e with
  | never => exact ⟨hall (fun d hd => (List.not_mem_nil hd).elim), fun tick h => by cases h⟩
  | ended tick how =>
    have htick := hending tick rfl
    exact ⟨hall (by simp [htick]), fun _ h => by cases h; exact htick⟩
  | interrupted tick why =>
    have htick := hending tick rfl
    exact ⟨hall (by simp [htick]), fun _ h => by cases h; exact htick⟩

theorem Call.trace_by (agent : Agent) (stream : Bool) (author id : String)
    (hfirst : signals.first? = some t) (hnow : now ≤ t) :
    (trace agent signals stream author id now).By t := by
  unfold trace
  cases signals.interrupt? now with
  | some why =>
    refine traceOf_by hnow ⟨fun _ ha => (List.not_mem_nil ha).elim, ?_⟩
    intro tick h
    cases h
    exact hnow
  | none =>
    cases agent with
    | replay r => exact traceOf_by hnow (r.call_by stream hfirst hnow)
    | crashing =>
      refine ⟨?_, fun tick h => by cases h; exact hnow⟩
      intro d hd
      rw [List.mem_singleton.mp hd]
      exact hnow

end By

end Ensemble

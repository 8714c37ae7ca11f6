import Ensemble.Proofs.Call.Block
import Ensemble.Proofs.Call.Cause

/-!
What a deadline changes in a call.  Beside the same call with a later deadline or none, it changes
nothing that comes before it, and it replaces all that would come from then on by one response and
the report that the call has timed out.
-/

namespace Ensemble

/-! ## Two deadlines -/

/-- Nothing but deadlines interrupts: the one of `near` comes at a tick, and the one of `far`, if
there is one, not before. -/
structure Signals.Postpones (far near : Signals) (t : Nat) : Prop where
  nearCancel : near.cancelAt = none
  farCancel : far.cancelAt = none
  near : near.deadlineTick? = some t
  far : ∀ t', far.deadlineTick? = some t' → t ≤ t'

namespace Signals

variable {near far : Signals} {t : Nat}

theorem first?_of_cancelAt {signals : Signals} (h : signals.cancelAt = none) :
    signals.first? = signals.deadlineTick? := by
  rw [first?, h]

namespace Postpones

variable (h : Postpones far near t)

include h

theorem first?_near : near.first? = some t :=
  (first?_of_cancelAt h.nearCancel).trans h.near

theorem le_first?_far {t' : Nat} (ht' : far.first? = some t') : t ≤ t' :=
  h.far t' ((first?_of_cancelAt h.farCancel).symm.trans ht')

theorem calm_near {now : Nat} (hnow : now < t) : near.interrupt? now = none := by
  refine interrupt?_of_lt fun t' ht' => ?_
  cases h.first?_near.symm.trans ht'
  exact hnow

theorem calm_far {now : Nat} (hnow : now < t) : far.interrupt? now = none :=
  interrupt?_of_lt fun _ ht' => Nat.lt_of_lt_of_le hnow (h.le_first?_far ht')

theorem interrupt?_near {now : Nat} (hnow : t ≤ now) : near.interrupt? now = some .deadline := by
  refine interrupt?_eq_deadline_iff.mpr ⟨?_, deadlinePassed_of_deadlineTick? h.near hnow⟩
  rw [isCancelled, h.nearCancel]
  rfl

theorem firstBy?_near {due : Nat} : near.firstBy? due =
    if t ≤ due then some (t, .deadline) else none := by
  rw [firstBy?, h.first?_near]
  dsimp only
  rw [h.interrupt?_near (Nat.le_refl t)]
  rfl

theorem firstBy?_far {due : Nat} (hdue : due < t) : far.firstBy? due = none := by
  unfold firstBy?
  cases hfirst : far.first? with
  | none => rfl
  | some t' =>
    have hle := h.le_first?_far hfirst
    dsimp only
    rw [if_neg (by omega)]

end Postpones

end Signals

/-! ## What is heard -/

/-- What a deadline at a tick leaves of what would be heard without it. -/
inductive Hearing.CutAt (t : Nat) (whole : Hearing) : Hearing → Prop
  | untouched (harrived : ∀ a ∈ whole.arrived, a.1 < t)
      (hending : ∃ tick < t, whole.ending.tick? = some tick) : CutAt t whole whole
  | cut {kept more : List (Nat × Delta)} (hwhole : whole.arrived = kept ++ more)
      (hkept : ∀ a ∈ kept, a.1 < t) (hmore : ∀ a ∈ more, t ≤ a.1)
      (hending : ∀ tick, whole.ending.tick? = some tick → t ≤ tick) :
      CutAt t whole ⟨kept, .interrupted t .deadline⟩

/-- Nothing is heard before a tick. -/
def Hearing.From (t : Nat) (h : Hearing) : Prop :=
  (∀ a ∈ h.arrived, t ≤ a.1) ∧ ∀ tick, h.ending.tick? = some tick → t ≤ tick

theorem Hearing.cutAt_of_from {t : Nat} {whole : Hearing} (h : whole.From t) :
    whole.CutAt t ⟨[], .interrupted t .deadline⟩ :=
  .cut (List.nil_append _).symm (fun _ ha => (List.not_mem_nil ha).elim) h.1 h.2

theorem Hearing.CutAt.cons {t tick : Nat} {d : Delta} {whole h : Hearing} (hcut : whole.CutAt t h)
    (htick : tick < t) :
    CutAt t ⟨(tick, d) :: whole.arrived, whole.ending⟩ ⟨(tick, d) :: h.arrived, h.ending⟩ := by
  cases hcut with
  | untouched harrived hending =>
    exact .untouched (List.forall_mem_cons.mpr ⟨htick, harrived⟩) hending
  | cut hwhole hkept hmore hending =>
    exact .cut (congrArg _ hwhole) (List.forall_mem_cons.mpr ⟨htick, hkept⟩) hmore hending

namespace Replay

variable {r : Replay} {signals near far : Signals} {t now : Nat}

theorem listen_from (hfirst : ∀ tick, signals.first? = some tick → t ≤ tick) (hnow : t ≤ now)
    (ds : List Delta) : (r.listen signals now ds).From t := by
  induction ds generalizing now with
  | nil =>
    refine ⟨fun _ ha => (List.not_mem_nil ha).elim, fun tick h => ?_⟩
    rw [listen] at h
    cases htail : r.tail with
    | complete | transportError =>
      rw [htail] at h
      cases h
      exact hnow
    | hang =>
      rw [htail] at h
      simp only [Tail.ending] at h
      split at h
      · next tick' hfirst' =>
        split at h
        · cases h
          exact hfirst _ hfirst'
        · cases h
      · cases h
  | cons d ds ih =>
    have hdue : t ≤ now + r.delay := by omega
    rw [listen]
    cases hby : signals.firstBy? (now + r.delay) with
    | some first =>
      refine ⟨fun _ ha => (List.not_mem_nil ha).elim, fun tick h => ?_⟩
      cases h
      exact hfirst _ (Signals.firstBy?_eq_some hby).1
    | none =>
      obtain ⟨harrived, hending⟩ := ih hdue
      exact ⟨List.forall_mem_cons.mpr ⟨hdue, harrived⟩, hending⟩

theorem listen_cutAt (h : far.Postpones near t) (hnow : now < t) (ds : List Delta) :
    (r.listen far now ds).CutAt t (r.listen near now ds) := by
  -- delta by delta, as long as the next one is due before the deadline
  induction ds generalizing now with
  | nil =>
    rw [listen, listen]
    cases htail : r.tail with
    | complete | transportError =>
      exact .untouched (fun _ ha => (List.not_mem_nil ha).elim) ⟨now, hnow, rfl⟩
    | hang =>
      have hnear : Tail.hang.ending near now = .interrupted t .deadline := by
        simp only [Tail.ending, h.first?_near, h.interrupt?_near (Nat.le_refl t)]
      rw [hnear]
      refine Hearing.cutAt_of_from ⟨fun _ ha => (List.not_mem_nil ha).elim, fun tick hending => ?_⟩
      simp only [Tail.ending] at hending
      split at hending
      · next t' ht' =>
        split at hending
        · cases hending
          exact h.le_first?_far ht'
        · cases hending
      · cases hending
  | cons d ds ih =>
    by_cases hdue : now + r.delay < t
    · rw [listen, listen, h.firstBy?_near, h.firstBy?_far hdue, if_neg (by omega)]
      exact (ih hdue).cons hdue
    · have hnear : r.listen near now (d :: ds) = ⟨[], .interrupted t .deadline⟩ := by
        rw [listen, h.firstBy?_near, if_pos (by omega)]
      rw [hnear]
      refine Hearing.cutAt_of_from ?_
      rw [listen]
      cases hby : far.firstBy? (now + r.delay) with
      | some first =>
        refine ⟨fun _ ha => (List.not_mem_nil ha).elim, fun tick hending => ?_⟩
        cases hending
        exact h.le_first?_far (Signals.firstBy?_eq_some hby).1
      | none =>
        obtain ⟨harrived, hending⟩ := listen_from (r := r) (fun _ => h.le_first?_far)
          (Nat.le_of_not_lt hdue) ds
        exact ⟨List.forall_mem_cons.mpr ⟨Nat.le_of_not_lt hdue, harrived⟩, hending⟩

theorem call_cutAt (h : far.Postpones near t) (stream : Bool) (hnow : now < t) :
    (r.call far stream now).CutAt t (r.call near stream now) := by
  unfold call
  cases r.rejection with
  | none => exact listen_cutAt h hnow _
  | some e => exact .untouched (fun _ ha => (List.not_mem_nil ha).elim) ⟨now, hnow, rfl⟩

end Replay

/-! ## What is done -/

/-- What a deadline at a tick leaves of what a call would do without it. -/
inductive Trace.CutAt (t : Nat) (author id : String) (whole : Trace) : Trace → Prop
  | untouched (hdrafts : ∀ d ∈ whole.drafts, d.1 < t)
      (hclose : ∃ tick < t, whole.close.tick? = some tick) : CutAt t author id whole whole
  | cut {kept more : List (Nat × EventDraft)} {r : Response} (hwhole : whole.drafts = kept ++ more)
      (hkept : ∀ d ∈ kept, d.1 < t) (hmore : ∀ d ∈ more, t ≤ d.1)
      (hclose : ∀ tick, whole.close.tick? = some tick → t ≤ tick) :
      CutAt t author id whole
        { drafts := kept ++ [(t, .response author r), (t, .status author id .timedOut)]
          close := .closed t .timedOut (some r)
          called := whole.called }

/-- Nothing is done before a tick. -/
def Trace.From (t : Nat) (c : Trace) : Prop :=
  (∀ d ∈ c.drafts, t ≤ d.1) ∧ ∀ tick, c.close.tick? = some tick → t ≤ tick

theorem Trace.CutAt.called_eq {t : Nat} {author id : String} {whole c : Trace}
    (h : whole.CutAt t author id c) : c.called = whole.called := by
  cases h <;> rfl

namespace Call

variable {near far : Signals} {t now : Nat} {author id : String}

theorem tick?_traceOf {h : Hearing} {called : Bool} :
    (traceOf author id now h called).close.tick? = h.ending.tick? := by
  obtain ⟨arrived, e⟩ := h
  cases e <;> rfl

theorem drafts_ending_ge {h : Hearing} (hending : ∀ tick, h.ending.tick? = some tick → t ≤ tick) :
    ∀ d ∈ (ending author id h).1, t ≤ d.1 := by
  obtain ⟨arrived, e⟩ := h
  intro d hd
  cases e with
  | never => cases hd
  | ended tick how | interrupted tick why =>
    rcases List.mem_pair.mp hd with rfl | rfl
    · exact hending tick rfl
    · exact hending tick rfl

theorem tick_of_mem_partialDrafts {arrived : List (Nat × Delta)} {P : Nat → Prop}
    (harrived : ∀ a ∈ arrived, P a.1) : ∀ d ∈ partialDrafts author arrived, P d.1 := by
  intro d hd
  obtain ⟨a, ha, hmap⟩ := List.mem_filterMap.mp hd
  obtain ⟨p, -, rfl⟩ := Option.map_eq_some_iff.mp hmap
  exact harrived a ha

theorem traceOf_from {h : Hearing} {called : Bool} (hnow : t ≤ now) (hheard : h.From t) :
    (traceOf author id now h called).From t := by
  refine ⟨?_, fun tick htick => hheard.2 tick (tick?_traceOf.symm.trans htick)⟩
  refine List.forall_mem_cons.mpr ⟨hnow, fun d hd => ?_⟩
  rcases List.mem_append.mp hd with hd | hd
  · exact tick_of_mem_partialDrafts (P := (t ≤ ·)) hheard.1 d hd
  · exact drafts_ending_ge hheard.2 d hd

theorem trace_from {signals : Signals} (hfirst : ∀ tick, signals.first? = some tick → t ≤ tick)
    (hnow : t ≤ now) (agent : Agent) (stream : Bool) :
    (trace agent signals stream author id now).From t := by
  have hnothing {e : HearingEnd} (he : e.tick? = some now) : Hearing.From t ⟨[], e⟩ :=
    ⟨fun _ ha => (List.not_mem_nil ha).elim, fun _ h => by cases he.symm.trans h; exact hnow⟩
  unfold trace
  cases signals.interrupt? now with
  | some why => exact traceOf_from hnow (hnothing rfl)
  | none =>
    cases agent with
    | crashing =>
      exact ⟨List.forall_mem_singleton.mpr hnow, fun _ h => by cases h; exact hnow⟩
    | replay r =>
      refine traceOf_from hnow ?_
      unfold Replay.call
      cases r.rejection with
      | some e => exact hnothing rfl
      | none => exact Replay.listen_from hfirst hnow _

theorem traceOf_cutAt {whole h : Hearing} {called : Bool} (hnow : now < t)
    (hcut : whole.CutAt t h) :
    (traceOf author id now whole called).CutAt t author id (traceOf author id now h called) := by
  cases hcut with
  | untouched harrived hending =>
    obtain ⟨tick, htick, hwhole⟩ := hending
    have hby : whole.By (t - 1) := by
      refine ⟨fun a ha => Nat.le_sub_one_of_lt (harrived a ha), fun tick' h' => ?_⟩
      cases hwhole.symm.trans h'
      exact Nat.le_sub_one_of_lt htick
    have hdone : (traceOf author id now whole called).By (t - 1) :=
      traceOf_by (Nat.le_sub_one_of_lt hnow) hby
    refine .untouched (fun d hd => ?_) ⟨tick, htick, tick?_traceOf.trans hwhole⟩
    have hle := hdone.1 d hd
    omega
  | @cut kept more hwhole hkept hmore hending =>
    -- what has arrived by then is shown in either case; the rest is not
    have hshown : (traceOf author id now whole called).drafts =
        ((now, .status author id .running) :: partialDrafts author kept) ++
          (partialDrafts author more ++ (ending author id whole).1) := by
      show (now, EventDraft.status author id .running) :: partialDrafts author whole.arrived ++
        (ending author id whole).1 = _
      rw [hwhole, partialDrafts, List.filterMap_append]
      simp only [partialDrafts, List.cons_append, List.append_assoc]
    have hnear : traceOf author id now ⟨kept, .interrupted t .deadline⟩ called =
        { drafts := ((now, .status author id .running) :: partialDrafts author kept) ++
            [(t, .response author (Answer.response (kept.map Prod.snd) .cancelled)),
              (t, .status author id .timedOut)]
          close := .closed t .timedOut (some (Answer.response (kept.map Prod.snd) .cancelled))
          called := (traceOf author id now whole called).called } := by
      simp only [traceOf, ending, closing, finalDraft_cancelled]
      rfl
    rw [hnear]
    refine .cut hshown ?_ ?_ ?_
    · exact List.forall_mem_cons.mpr ⟨hnow, tick_of_mem_partialDrafts (P := (· < t)) hkept⟩
    · intro d hd
      rcases List.mem_append.mp hd with hd | hd
      · exact tick_of_mem_partialDrafts (P := (t ≤ ·)) hmore d hd
      · exact drafts_ending_ge hending d hd
    · intro tick htick
      exact hending tick (tick?_traceOf.symm.trans htick)

/-- A deadline changes nothing in a call that is over before it, and cuts off what another call
does from then on. -/
theorem trace_cutAt (h : far.Postpones near t) (agent : Agent) (stream : Bool) (hnow : now < t) :
    (trace agent far stream author id now).CutAt t author id
      (trace agent near stream author id now) := by
  unfold trace
  rw [h.calm_near hnow, h.calm_far hnow]
  cases agent with
  | replay r => exact traceOf_cutAt hnow (r.call_cutAt h stream hnow)
  | crashing => exact .untouched (List.forall_mem_singleton.mpr hnow) ⟨now, hnow, rfl⟩

theorem ne_timedOut_of_close (h : far.Postpones near t) {agent : Agent} {stream : Bool}
    {tick : Nat} {s : Status} {r : Option Response}
    (hclose : (trace agent near stream author id now).close = .closed tick s r)
    (htick : tick < t) : s ≠ .timedOut := by
  rintro rfl
  rcases close_cause hclose with (hs | hs) | ⟨why, -, hwhy⟩
  · cases hs
  · cases hs
  · cases (h.calm_near htick).symm.trans hwhy

end Call

end Ensemble

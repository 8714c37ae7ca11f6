import Ensemble.Proofs.Call.Modes
import Ensemble.Proofs.Call.Cause
import Ensemble.Proofs.Invocation
import Mathlib.Algebra.Order.Floor.Div
import Mathlib.Data.ENat.Basic

/-!
What a call has heard when it ends.  The deltas of a script are due one delay after the other; the
call takes every one that is due before the earlier of the cancellation and the deadline, and none
that is due at that tick or later, so that what it leaves can be told from these times alone.
-/

namespace Ensemble

/-! ## The first signal -/

namespace Signals

/-- A tick as a time; what has no tick never comes. -/
def timeOf : Option ℕ → ℕ∞
  | some tick => tick
  | none => ⊤

theorem timeOf_eq_coe_iff {o : Option ℕ} {tick : ℕ} : timeOf o = tick ↔ o = some tick := by
  cases o <;> simp [timeOf]

theorem timeOf_eq_top_iff {o : Option ℕ} : timeOf o = ⊤ ↔ o = none := by
  cases o <;> simp [timeOf]

theorem coe_lt_timeOf_iff {o : Option ℕ} {n : ℕ} :
    (n : ℕ∞) < timeOf o ↔ ∀ tick, o = some tick → n < tick := by
  cases o <;> simp [timeOf]

variable (signals : Signals)

/-- When cancellation is requested. -/
def cancelTime : ℕ∞ :=
  timeOf signals.cancelAt

/-- The deadline in ticks, rounded up. -/
def deadlineTime : ℕ∞ :=
  timeOf (signals.deadline.map fun d => d ⌈/⌉ nanosPerTick)

/-- The time up to which nothing interrupts: the earlier of the two. -/
def limit : ℕ∞ :=
  if signals.cancelTime ≤ signals.deadlineTime then signals.cancelTime else signals.deadlineTime

/-- What interrupts then. -/
def blame : Interrupt :=
  if signals.cancelTime ≤ signals.deadlineTime then .cancelled else .deadline

theorem deadlineTime_eq : signals.deadlineTime = timeOf signals.deadlineTick? := by
  have hceil (d : ℕ) : d ⌈/⌉ nanosPerTick = (d + (nanosPerTick - 1)) / nanosPerTick := by
    rw [Nat.ceilDiv_eq_add_pred_div, Nat.add_sub_assoc (by decide)]
  rw [deadlineTime, deadlineTick?]
  simp only [hceil]

theorem limit_eq : signals.limit = timeOf signals.first? := by
  rw [limit, deadlineTime_eq, cancelTime, first?]
  cases signals.cancelAt with
  | none => cases signals.deadlineTick? <;> simp [timeOf]
  | some c =>
    cases signals.deadlineTick? with
    | none => simp [timeOf]
    | some t =>
      rw [← min_def]
      exact (Nat.mono_cast.map_min).symm

variable {signals}

theorem limit_eq_coe_iff {tick : ℕ} : signals.limit = tick ↔ signals.first? = some tick := by
  rw [limit_eq, timeOf_eq_coe_iff]

theorem coe_lt_limit_iff {n : ℕ} :
    (n : ℕ∞) < signals.limit ↔ ∀ tick, signals.first? = some tick → n < tick := by
  rw [limit_eq, coe_lt_timeOf_iff]

/-- At the first signal the cancellation is noticed before the deadline. -/
theorem interrupt?_first {tick : ℕ} (h : signals.first? = some tick) :
    signals.interrupt? tick = some signals.blame := by
  have hlimit := limit_eq_coe_iff.mpr h
  rw [limit] at hlimit
  rw [blame]
  by_cases hle : signals.cancelTime ≤ signals.deadlineTime
  · have hcancel : signals.cancelAt = some tick := by
      rw [if_pos hle] at hlimit
      exact timeOf_eq_coe_iff.mp hlimit
    rw [if_pos hle, interrupt?_eq_cancelled_iff]
    exact isCancelled_of_cancelAt hcancel (Nat.le_refl tick)
  · have hdeadline : signals.deadlineTime = tick := by
      rwa [if_neg hle] at hlimit
    rw [if_neg hle, interrupt?_eq_deadline_iff]
    constructor
    · -- a cancellation that has come would not be after the deadline
      rw [← Bool.not_eq_true, isCancelled_iff]
      rintro ⟨c, hc, hle'⟩
      apply hle
      rw [cancelTime, timeOf_eq_coe_iff.mpr hc, hdeadline]
      exact Nat.cast_le.mpr hle'
    · rw [deadlineTime_eq, timeOf_eq_coe_iff] at hdeadline
      exact deadlinePassed_of_deadlineTick? hdeadline (Nat.le_refl tick)

theorem firstBy?_eq_none {due : ℕ} (h : ∀ t, signals.first? = some t → due < t) :
    signals.firstBy? due = none := by
  rw [firstBy?]
  cases hfirst : signals.first? with
  | none => rfl
  | some t => exact if_neg (Nat.not_le.mpr (h t hfirst))

theorem firstBy?_eq_blame {due t : ℕ} (h : signals.first? = some t) (hle : t ≤ due) :
    signals.firstBy? due = some (t, signals.blame) := by
  rw [firstBy?, h]
  dsimp only
  rw [if_pos hle, interrupt?_first h, Option.map_some]

end Signals

/-! ## What is heard -/

namespace Replay

variable (r : Replay)

/-- Deltas with the ticks at which they are due, when nothing is due before the given one. -/
def arrivals (now : Nat) (ds : List Delta) : List (Nat × Delta) :=
  ds.mapIdx fun j d => (now + (j + 1) * r.delay, d)

/-- How many of so many deltas are due within some ticks. -/
def dueWithin (n ticks : Nat) : Nat :=
  (List.range' 1 n).countP fun j => j * r.delay < ticks

theorem arrivals_cons (now : Nat) (d : Delta) (ds : List Delta) :
    r.arrivals now (d :: ds) = (now + r.delay, d) :: r.arrivals (now + r.delay) ds := by
  rw [arrivals, List.mapIdx_cons, arrivals, Nat.zero_add, Nat.one_mul]
  congr 2
  funext j d
  rw [Nat.succ_mul, Nat.add_comm _ r.delay, Nat.add_assoc]

theorem dueWithin_eq_zero {n ticks : Nat} (h : ticks ≤ r.delay) : r.dueWithin n ticks = 0 := by
  rw [dueWithin, List.countP_eq_zero]
  intro j hj
  have hpos : 1 ≤ j := (List.mem_range'_1.mp hj).1
  have hmul : 1 * r.delay ≤ j * r.delay := Nat.mul_le_mul_right r.delay hpos
  simp only [decide_eq_true_eq]
  omega

theorem dueWithin_succ {n ticks : Nat} (h : r.delay < ticks) :
    r.dueWithin (n + 1) ticks = r.dueWithin n (ticks - r.delay) + 1 := by
  have hshift : List.range' 2 n = (List.range' 1 n).map (1 + ·) := (List.map_add_range' 1 n 1).symm
  rw [dueWithin, List.range'_succ, List.countP_cons_of_pos (by simpa using h), hshift,
    List.countP_map, dueWithin]
  congr 1
  apply List.countP_congr
  intro j _
  have hmul : (1 + j) * r.delay = j * r.delay + r.delay := by rw [Nat.add_comm, Nat.succ_mul]
  simp only [Function.comp_apply, hmul, decide_eq_true_eq]
  omega

theorem dueWithin_eq_self {n ticks : Nat} (h : n * r.delay < ticks) : r.dueWithin n ticks = n := by
  have hall : (List.range' 1 n).countP (fun j => j * r.delay < ticks) =
      (List.range' 1 n).length := by
    rw [List.countP_eq_length]
    intro j hj
    have hle : j ≤ n := by
      have := (List.mem_range'_1.mp hj).2
      omega
    have hmul := Nat.mul_le_mul_right r.delay hle
    simp only [decide_eq_true_eq]
    omega
  rw [dueWithin, hall, List.length_range']

variable {r} {signals : Signals} {now : Nat}

/-- Deltas that are all due before the first signal all arrive. -/
theorem listen_all {ds : List Delta}
    (h : ∀ tick, signals.first? = some tick → now + ds.length * r.delay < tick) :
    r.listen signals now ds =
      ⟨r.arrivals now ds, r.tail.ending signals (now + ds.length * r.delay)⟩ := by
  induction ds generalizing now with
  | nil => simp [listen, arrivals]
  | cons d ds ih =>
    have hend : now + (d :: ds).length * r.delay = now + r.delay + ds.length * r.delay := by
      rw [List.length_cons, Nat.succ_mul]
      omega
    rw [hend] at h ⊢
    have hnone : signals.firstBy? (now + r.delay) = none :=
      Signals.firstBy?_eq_none fun tick htick => by
        have := h tick htick
        omega
    rw [listen, hnone, arrivals_cons]
    simp only [ih h]

/-- Otherwise the first signal cuts the deltas off that are not due before it. -/
theorem listen_cut {tick : Nat} (hfirst : signals.first? = some tick) (hnow : now < tick)
    {ds : List Delta} (hcut : tick ≤ now + ds.length * r.delay) :
    r.listen signals now ds =
      ⟨r.arrivals now (ds.take (r.dueWithin ds.length (tick - now))),
        .interrupted tick signals.blame⟩ := by
  induction ds generalizing now with
  | nil =>
    rw [List.length_nil, Nat.zero_mul] at hcut
    omega
  | cons d ds ih =>
    rw [List.length_cons] at hcut ⊢
    by_cases hdue : now + r.delay < tick
    · have hnone : signals.firstBy? (now + r.delay) = none :=
        Signals.firstBy?_eq_none fun tick' htick' => by
          cases hfirst.symm.trans htick'
          exact hdue
      have hcut' : tick ≤ now + r.delay + ds.length * r.delay := by
        rw [Nat.succ_mul] at hcut
        omega
      rw [listen, hnone, r.dueWithin_succ (by omega), List.take_succ_cons, arrivals_cons,
        Nat.sub_sub]
      simp only [ih hdue hcut']
    · rw [listen, Signals.firstBy?_eq_blame hfirst (by omega), r.dueWithin_eq_zero (by omega)]
      rfl

end Replay

/-! ## What a call leaves -/

namespace Replay

variable (r : Replay)

/-- The deltas that a call can bring. -/
def delivered (stream : Bool) : List Delta :=
  if r.rejection.isSome then [] else r.deltas stream

/-- How the agent itself ends a call, if it ever does. -/
def streamEnd? : Option StreamEnd :=
  match r.rejection with
  | some e => some (.transportError e.message)
  | none => r.tail.streamEnd?

variable {r} {stream : Bool} {signals : Signals}

theorem call_eq_listen (h : r.rejection = none) (now : Nat) :
    r.call signals stream now = r.listen signals now (r.delivered stream) := by
  rw [call, h, delivered, h]
  rfl

theorem call_ended {how : StreamEnd} (hend : r.streamEnd? = some how)
    (hdue : (((r.delivered stream).length * r.delay : ℕ) : ℕ∞) < signals.limit) :
    r.call signals stream 0 =
      ⟨r.arrivals 0 (r.delivered stream), .ended ((r.delivered stream).length * r.delay) how⟩ := by
  cases hrejection : r.rejection with
  | some e =>
    -- a refusal comes before any delta
    rw [streamEnd?, hrejection] at hend
    rw [call, hrejection, delivered, hrejection, ← Option.some.inj hend]
    simp [arrivals]
  | none =>
    rw [streamEnd?, hrejection] at hend
    rw [call_eq_listen hrejection, listen_all (by simpa using Signals.coe_lt_limit_iff.mp hdue)]
    cases htail : r.tail with
    | hang =>
      rw [htail] at hend
      cases hend
    | complete | transportError message =>
      rw [htail] at hend
      rw [Nat.zero_add, ← Option.some.inj hend, Tail.ending]

theorem call_hanging (hend : r.streamEnd? = none)
    (hdue : (((r.delivered stream).length * r.delay : ℕ) : ℕ∞) < signals.limit) :
    r.call signals stream 0 =
      ⟨r.arrivals 0 (r.delivered stream),
        Tail.hang.ending signals ((r.delivered stream).length * r.delay)⟩ := by
  cases hrejection : r.rejection with
  | some e =>
    rw [streamEnd?, hrejection] at hend
    cases hend
  | none =>
    rw [streamEnd?, hrejection] at hend
    have htail : r.tail = .hang := by
      cases htail : r.tail with
      | hang => rfl
      | complete | transportError message =>
        rw [htail] at hend
        cases hend
    rw [call_eq_listen hrejection, listen_all (by simpa using Signals.coe_lt_limit_iff.mp hdue),
      htail, Nat.zero_add]

theorem call_cut {tick : Nat} (hlimit : signals.limit = tick) (hpos : 0 < tick)
    (hcut : tick ≤ (r.delivered stream).length * r.delay) :
    r.call signals stream 0 =
      ⟨r.arrivals 0 ((r.delivered stream).take (r.dueWithin (r.delivered stream).length tick)),
        .interrupted tick signals.blame⟩ := by
  have hrejection : r.rejection = none := by
    cases hrejection : r.rejection with
    | none => rfl
    | some e =>
      rw [delivered, hrejection] at hcut
      simp at hcut
      omega
  rw [call_eq_listen hrejection,
    listen_cut (Signals.limit_eq_coe_iff.mp hlimit) hpos (by simpa using hcut), Nat.sub_zero]

end Replay

/-- A step, begun at the first tick, that ended at a tick after some deltas had arrived. -/
structure Step.EndsWith (step : Step) (i : Invocation) (s : Session) (tick : Nat)
    (arrived : List (Nat × Delta)) (how : StreamEnd) (status : Status) : Prop where
  session : step.session =
    s.appendAll ((0, .status i.author i.id .running) :: Call.partialDrafts i.author arrived ++
      [(tick, Call.finalDraft i.author arrived how), (tick, .status i.author i.id status)])
  close : step.close =
    .closed tick status (Call.responseOf (Call.finalDraft i.author arrived how))
  status : step.invocation.status = status

namespace Step

variable {ctx : Run.Context} {r : Replay} {i : Invocation} {s : Session}

theorem endsWith_of_closing (hi : i.status.isTerminal = false) {h : Hearing} {called : Bool}
    (htrace : trace ctx (.replay r) i 0 = Call.traceOf i.author i.id 0 h called) {tick : Nat}
    {how : StreamEnd} {status : Status}
    (hending : Call.ending i.author i.id h =
      Call.closing i.author i.id tick (Call.finalDraft i.author h.arrived how) status) :
    (take ctx (.replay r) i s 0).EndsWith i s tick h.arrived how status := by
  have hclose : (trace ctx (.replay r) i 0).close =
      .closed tick status (Call.responseOf (Call.finalDraft i.author h.arrived how)) := by
    rw [htrace, Call.traceOf, hending]
    rfl
  constructor
  · show s.appendAll (trace ctx (.replay r) i 0).drafts = _
    rw [htrace, Call.traceOf, hending]
    rfl
  · exact hclose
  · show (settle (i.transition 0 .running) (trace ctx (.replay r) i 0).close).status = status
    have hrunning : (i.transition 0 .running).status.isTerminal = false := by
      rw [Invocation.status_transition _ _ _ hi]
      rfl
    rw [hclose]
    exact Invocation.status_transition _ _ _ hrunning

theorem trace_of_pos (h : 0 < ctx.signals.limit) :
    trace ctx (.replay r) i 0 =
      Call.traceOf i.author i.id 0 (r.call ctx.signals ctx.stream 0) true := by
  have hcalm : ctx.signals.interrupt? 0 = none :=
    Signals.interrupt?_of_lt (Signals.coe_lt_limit_iff.mp h)
  rw [trace, Call.trace, hcalm]

theorem trace_of_zero (h : ctx.signals.limit = 0) :
    trace ctx (.replay r) i 0 =
      Call.traceOf i.author i.id 0 ⟨[], .interrupted 0 ctx.signals.blame⟩ false := by
  have hfirst : ctx.signals.first? = some 0 := Signals.limit_eq_coe_iff.mp h
  rw [trace, Call.trace, Signals.interrupt?_first hfirst]

theorem request_take (ctx : Run.Context) (r : Replay) (i : Invocation) (s : Session) :
    (take ctx (.replay r) i s 0).request =
      if ctx.signals.limit = 0 then none else some (requestFor ctx i s 0) := by
  show (if (trace ctx (.replay r) i 0).called then _ else none) = _
  by_cases h : ctx.signals.limit = 0
  · rw [if_pos h, trace_of_zero h]
    rfl
  · rw [if_neg h, trace_of_pos (pos_iff_ne_zero.mpr h)]
    rfl

theorem endsWith_interrupted (hi : i.status.isTerminal = false) {tick : ℕ}
    (hlimit : ctx.signals.limit = tick) :
    let ds := r.delivered ctx.stream
    (tick = 0 ∨ tick ≤ ds.length * r.delay ∨ r.streamEnd? = none) →
      (take ctx (.replay r) i s 0).EndsWith i s tick
        (r.arrivals 0 (ds.take (r.dueWithin ds.length tick))) .cancelled
        ctx.signals.blame.status := by
  intro ds hcause
  by_cases hzero : tick = 0
  · -- interrupted before the agent is called
    subst hzero
    rw [r.dueWithin_eq_zero (Nat.zero_le _), List.take_zero]
    exact endsWith_of_closing hi (trace_of_zero hlimit) rfl
  have hpos : 0 < tick := Nat.pos_of_ne_zero hzero
  have htrace : trace ctx (.replay r) i 0 = _ :=
    trace_of_pos (by rw [hlimit]; exact Nat.cast_lt.mpr hpos)
  by_cases hcut : tick ≤ ds.length * r.delay
  · rw [Replay.call_cut hlimit hpos hcut] at htrace
    exact endsWith_of_closing hi htrace rfl
  · -- all deltas have arrived, and the agent hangs until the signal comes
    have hend : r.streamEnd? = none := by
      rcases hcause with h | h | h
      · exact absurd h hzero
      · exact absurd h hcut
      · exact h
    have hdue : ((ds.length * r.delay : ℕ) : ℕ∞) < ctx.signals.limit := by
      rw [hlimit]
      exact Nat.cast_lt.mpr (Nat.lt_of_not_le hcut)
    have hfirst := Signals.limit_eq_coe_iff.mp hlimit
    rw [Replay.call_hanging hend hdue] at htrace
    simp only [Tail.ending, hfirst, Signals.interrupt?_first hfirst] at htrace
    rw [r.dueWithin_eq_self (Nat.lt_of_not_le hcut), List.take_length]
    exact endsWith_of_closing hi htrace rfl

theorem endsWith_ended (hi : i.status.isTerminal = false) {how : StreamEnd}
    (hpos : 0 < ctx.signals.limit) (hend : r.streamEnd? = some how) :
    let ds := r.delivered ctx.stream
    ((ds.length * r.delay : ℕ) : ℕ∞) < ctx.signals.limit →
      (take ctx (.replay r) i s 0).EndsWith i s (ds.length * r.delay) (r.arrivals 0 ds) how
        (Call.statusOf (Call.finalDraft i.author (r.arrivals 0 ds) how)) := by
  intro ds hdue
  have htrace : trace ctx (.replay r) i 0 = _ := trace_of_pos hpos
  rw [Replay.call_ended hend hdue] at htrace
  exact endsWith_of_closing hi htrace rfl

theorem never_ends (htop : ctx.signals.limit = ⊤) (hend : r.streamEnd? = none) :
    (take ctx (.replay r) i s 0).session = s.appendAll ((0, .status i.author i.id .running) ::
        Call.partialDrafts i.author (r.arrivals 0 (r.delivered ctx.stream))) ∧
      (take ctx (.replay r) i s 0).close = .never := by
  have hlt (n : ℕ) : (n : ℕ∞) < ctx.signals.limit := by
    rw [htop]
    exact ENat.natCast_lt_top n
  have hfirst : ctx.signals.first? = none := by
    rwa [← Signals.timeOf_eq_top_iff, ← Signals.limit_eq]
  have htrace : trace ctx (.replay r) i 0 = _ := trace_of_pos (hlt 0)
  rw [Replay.call_hanging hend (hlt _)] at htrace
  simp only [Tail.ending, hfirst] at htrace
  constructor
  · show s.appendAll (trace ctx (.replay r) i 0).drafts = _
    rw [htrace]
    exact congrArg s.appendAll (List.append_nil _)
  · show (trace ctx (.replay r) i 0).close = _
    rw [htrace]
    rfl

/-- A replayed script, called at the first tick.  The agent is called unless something interrupts at
once; if all deltas are due before the first signal and the agent does not hang, the call ends with
all of them when the last one is due; otherwise it ends at the first signal with those that were due
before it; and without any signal an agent that hangs keeps its call open. -/
theorem take_replay (ctx : Run.Context) (r : Replay) (i : Invocation) (s : Session)
    (hi : i.status.isTerminal = false) :
    let ds := r.delivered ctx.stream
    let limit := ctx.signals.limit
    let step := take ctx (.replay r) i s 0
    (step.request = if limit = 0 then none else some (requestFor ctx i s 0)) ∧
    (∀ how, 0 < limit → r.streamEnd? = some how → ((ds.length * r.delay : ℕ) : ℕ∞) < limit →
      step.EndsWith i s (ds.length * r.delay) (r.arrivals 0 ds) how
        (Call.statusOf (Call.finalDraft i.author (r.arrivals 0 ds) how))) ∧
    (∀ tick : ℕ, limit = tick →
      (tick = 0 ∨ tick ≤ ds.length * r.delay ∨ r.streamEnd? = none) →
      step.EndsWith i s tick (r.arrivals 0 (ds.take (r.dueWithin ds.length tick))) .cancelled
        ctx.signals.blame.status) ∧
    (limit = ⊤ → r.streamEnd? = none →
      step.session = s.appendAll ((0, .status i.author i.id .running) ::
        Call.partialDrafts i.author (r.arrivals 0 ds)) ∧ step.close = .never) := by
  intro ds limit step
  refine ⟨request_take ctx r i s, ?_, ?_, ?_⟩
  · exact fun how hpos hend => endsWith_ended hi hpos hend
  · exact fun tick hlimit => endsWith_interrupted hi hlimit
  · exact fun htop hend => never_ends htop hend

/-- Half a millisecond before a cancellation is the same tick: the second delta, which is due then,
is not taken, and the call counts as cancelled. -/
theorem take_replay_tie :
    let ctx : Run.Context :=
      { task := "t", signals := { cancelAt := some 20, deadline := some 19500000 } }
    let r : Replay := { script := [.ofText "a", .ofText "b", .ofText "c"], delay := 10 }
    let i : Invocation := { id := "inv-1", agent := { name := "w" }, sessionId := "session-1" }
    let step := take ctx (.replay r) i { id := "session-1" } 0
    i.status.isTerminal = false ∧
      step.EndsWith i { id := "session-1" } 20 [(10, .ofText "a")] .cancelled .cancelled := by
  intro ctx r i step
  have hi : i.status.isTerminal = false := rfl
  have hfirst : ctx.signals.first? = some 20 := by decide
  have hblame : ctx.signals.blame = .cancelled := by
    have hwhy : ctx.signals.interrupt? 20 = some .cancelled := by decide
    rw [Signals.interrupt?_first hfirst] at hwhy
    exact Option.some.inj hwhy
  have hends := (take_replay ctx r i { id := "session-1" } hi).2.2.1 20
    (Signals.limit_eq_coe_iff.mpr hfirst) (.inr (.inl (by decide)))
  rw [hblame] at hends
  exact ⟨hi, hends⟩

end Step

end Ensemble
